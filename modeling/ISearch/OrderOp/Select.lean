import ISearch.OrderOp.Defs

/-!
# The selection of a page

The heap keeps the first entries of an order as long as no way down stops at an entry of the same
score that is greater, and no entry is met again that is kept.
-/

namespace ISearch.OrderOp

open List
open KeyFormat (Bytes)
open Heap

variable {ft : FieldType} {sortType : SortType}

/-! ## The order -/

/-- Scores, then document ids, in the direction of the sort type. -/
def Rank (ft : FieldType) : SortType → Type
  | .asc => ft.Score ×ₗ Bytes
  | .desc => (ft.Score ×ₗ Bytes)ᵒᵈ

instance : (sortType : SortType) → LinearOrder (Rank ft sortType)
  | .asc => inferInstanceAs (LinearOrder (ft.Score ×ₗ Bytes))
  | .desc => inferInstanceAs (LinearOrder (ft.Score ×ₗ Bytes)ᵒᵈ)

def rankOf (score : ft.Score) (docId : Bytes) : (sortType : SortType) → Rank ft sortType
  | .asc => toLex (score, docId)
  | .desc => OrderDual.toDual (toLex (score, docId))

namespace DocIdEntry

/-- The place of an entry among the scores. -/
def rank (sortType : SortType) (e : DocIdEntry ft) : Rank ft sortType :=
  rankOf e.score e.docId sortType

/-- The place that `operator<` gives an entry. -/
def castRank (sortType : SortType) (e : DocIdEntry ft) : Rank ft sortType :=
  rankOf (castScore ft e.score) e.docId sortType

theorem less_iff (e other : DocIdEntry ft) :
    e.less sortType other = true ↔ e.castRank sortType < other.castRank sortType := by
  cases sortType with
  | asc =>
    have hlt : e.castRank .asc < other.castRank .asc ↔
        toLex (castScore ft e.score, e.docId) < toLex (castScore ft other.score, other.docId) :=
      Iff.rfl
    rw [hlt, Prod.Lex.toLex_lt_toLex, less]
    dsimp only
    by_cases h : castScore ft e.score = castScore ft other.score
    · simp [h]
    · simp [h]
  | desc =>
    have hlt : e.castRank .desc < other.castRank .desc ↔
        toLex (castScore ft other.score, other.docId) < toLex (castScore ft e.score, e.docId) :=
      Iff.rfl
    rw [hlt, Prod.Lex.toLex_lt_toLex, less]
    dsimp only
    by_cases h : castScore ft e.score = castScore ft other.score
    · simp [h]
    · simp [h, Ne.symm h]

theorem castRank_inj {e other : DocIdEntry ft} (h : e.castRank sortType = other.castRank sortType) :
    e.docId = other.docId := by
  cases sortType with
  | asc => exact congrArg (fun p => (ofLex p).2) h
  | desc => exact congrArg (fun p => (ofLex (OrderDual.ofDual p)).2) h

end DocIdEntry

open DocIdEntry

/-- Documents are known by their ids. -/
def Distinct (l : List (DocIdEntry ft)) : Prop :=
  ∀ x ∈ l, ∀ y ∈ l, x.docId = y.docId → x = y

theorem ScoreMap.distinct (scoreMap : ScoreMap ft) : Distinct scoreMap.entries := by
  intro x hx y hy h
  exact scoreMap.sorted.eq_of_key_eq hx hy h

section Right

variable (sortType)

/-- No way down from `index` stops at an entry that is greater. -/
def AdjustsRight (v : List (DocIdEntry ft)) (index : Nat) : Prop :=
  StopsRight (castRank sortType) (·.less sortType ·) (stop sortType) v[index]! v.length v index

/-- An entry that takes the place of the root is not kept already. -/
def ReplacesRight (keep : DocIdEntry ft → Bool) :
    List (DocIdEntry ft) → List (DocIdEntry ft) → Prop
  | _, [] => True
  | maxHeapVec, e :: arr =>
    if e.less sortType maxHeapVec[0]! && keep e then
      e ∉ maxHeapVec ∧ AdjustsRight sortType (maxHeapVec.set 0 e) 0 ∧
        ReplacesRight keep (emplacePeek sortType maxHeapVec e) arr
    else ReplacesRight keep maxHeapVec arr

/-- `getNumbers` meets neither. -/
def SelectsRight (keep : DocIdEntry ft → Bool) (arr : List (DocIdEntry ft)) (k : Nat) : Prop :=
  let maxHeapVec := fill keep k [] arr
  BuildsRight (downAdjust sortType) (AdjustsRight sortType) (maxHeapVec.length / 2) maxHeapVec ∧
    ReplacesRight sortType keep (buildMaxHeap sortType maxHeapVec) (arr.drop k)

instance (v : List (DocIdEntry ft)) (index : Nat) : Decidable (AdjustsRight sortType v index) :=
  StopsRight.instDecidable _ _ _

instance ReplacesRight.instDecidable (keep : DocIdEntry ft → Bool) :
    (maxHeapVec arr : List (DocIdEntry ft)) →
      Decidable (ReplacesRight sortType keep maxHeapVec arr)
  | _, [] => isTrue trivial
  | maxHeapVec, e :: arr =>
    have := instDecidable keep (emplacePeek sortType maxHeapVec e) arr
    have := instDecidable keep maxHeapVec arr
    inferInstanceAs (Decidable (
      if e.less sortType maxHeapVec[0]! && keep e then
        e ∉ maxHeapVec ∧ AdjustsRight sortType (maxHeapVec.set 0 e) 0 ∧
          ReplacesRight sortType keep (emplacePeek sortType maxHeapVec e) arr
      else ReplacesRight sortType keep maxHeapVec arr))

instance (keep : DocIdEntry ft → Bool) (arr : List (DocIdEntry ft)) (k : Nat) :
    Decidable (SelectsRight sortType keep arr k) :=
  inferInstanceAs (Decidable (_ ∧ _))

end Right

/-! ## The heap -/

section Heap

variable {v arr : List (DocIdEntry ft)} {index k : Nat} {keep : DocIdEntry ft → Bool}

theorem le_of_stop_eq_false {child parent : DocIdEntry ft}
    (h : stop sortType child parent = false) :
    parent.castRank sortType ≤ child.castRank sortType := by
  rw [stop, Bool.or_eq_false_iff] at h
  rw [← not_lt, ← less_iff, h.1]
  exact Bool.false_ne_true

theorem downAdjust_perm (h : index < v.length) : (downAdjust sortType v index).Perm v := by
  have hperm := @siftDown_perm _ v[index]! v index _ (·.less sortType ·) (stop sortType) v.length h
  rw [getElem!_pos v index h, set_getElem_self] at hperm
  rw [downAdjust, getElem!_pos v index h]
  exact hperm

theorem heapFrom_downAdjust (h : HeapFrom (castRank sortType) (index + 1) v)
    (hright : AdjustsRight sortType v index) :
    HeapFrom (castRank sortType) index (downAdjust sortType v index) :=
  heapFrom_siftDown less_iff (fun _ _ => le_of_stop_eq_false) h (by omega) hright

theorem buildMaxHeap_spec
    (h : BuildsRight (downAdjust sortType) (AdjustsRight sortType) (v.length / 2) v) :
    HeapFrom (castRank sortType) 0 (buildMaxHeap sortType v) ∧ (buildMaxHeap sortType v).Perm v :=
  heapFrom_build (fun _ _ _ => heapFrom_downAdjust) (fun _ _ => downAdjust_perm) (by omega)
    (heapFrom_half (by omega)) h

theorem emplacePeek_perm {m val : DocIdEntry ft} :
    (emplacePeek sortType (m :: v) val).Perm (val :: v) :=
  downAdjust_perm (by simp)

theorem heapFrom_emplacePeek {val : DocIdEntry ft} (h : HeapFrom (castRank sortType) 0 v)
    (hright : AdjustsRight sortType (v.set 0 val) 0) :
    HeapFrom (castRank sortType) 0 (emplacePeek sortType v val) := by
  refine heapFrom_downAdjust (fun j c x y hj hc hx hy => ?_) hright
  rw [List.getElem?_set_ne (by omega)] at hx hy
  exact h j c x y (by omega) hc hx hy

/-- The first loop keeps the entries of a start of the range. -/
theorem fill_spec (keep : DocIdEntry ft → Bool) {acc : List (DocIdEntry ft)}
    (h : acc.length < k) (arr : List (DocIdEntry ft)) :
    ∃ pre post, arr = pre ++ post ∧ fill keep k acc arr = acc ++ pre.filter keep ∧
      ((fill keep k acc arr).length = k ∨ post = [] ∧ (fill keep k acc arr).length < k) := by
  induction arr generalizing acc with
  | nil => exact ⟨[], [], rfl, by simp [fill], .inr ⟨rfl, h⟩⟩
  | cons e arr ih =>
    have hfilter : acc ++ [e].filter keep = if keep e then acc ++ [e] else acc := by
      cases hk : keep e <;> simp [hk]
    rw [fill, ← hfilter]
    split
    · rename_i hfull
      refine ⟨[e], arr, rfl, rfl, .inl (Nat.le_antisymm ?_ hfull)⟩
      have hlen : ([e].filter keep).length ≤ 1 := length_filter_le _ [e]
      rw [length_append]
      omega
    · rename_i hfree
      obtain ⟨pre, post, harr, hfill, hlen⟩ := ih (Nat.not_le.mp hfree)
      refine ⟨e :: pre, post, by rw [harr, cons_append], ?_, hlen⟩
      rw [hfill, append_assoc, ← filter_append, singleton_append]

/-- Entries that are kept already, or need not be kept, change nothing. -/
theorem replace_append {xs post : List (DocIdEntry ft)} (hkept : ∀ e ∈ xs, keep e → e ∈ v)
    (hright : ReplacesRight sortType keep v (xs ++ post)) :
    replace sortType keep v (xs ++ post) = replace sortType keep v post ∧
      ReplacesRight sortType keep v post := by
  induction xs with
  | nil => exact ⟨rfl, hright⟩
  | cons e xs ih =>
    rw [cons_append, ReplacesRight] at hright
    have hstay : (e.less sortType v[0]! && keep e) = false := by
      by_contra htake
      rw [Bool.not_eq_false] at htake
      rw [if_pos htake] at hright
      exact hright.1 (hkept e mem_cons_self (Bool.and_eq_true_iff.mp htake).2)
    rw [if_neg (by rw [hstay]; exact Bool.false_ne_true)] at hright
    obtain ⟨heq, hpost⟩ := ih (fun x hx => hkept x (mem_cons_of_mem e hx)) hright
    refine ⟨?_, hpost⟩
    rw [← heq, cons_append, replace, foldl_cons, hstay]
    rfl

/-- The second loop keeps the first entries of those it has read. -/
theorem smallest_replace {l post : List (DocIdEntry ft)} (hne : v ≠ [])
    (hheap : HeapFrom (castRank sortType) 0 v) (h : Smallest (castRank sortType) l v)
    (hright : ReplacesRight sortType keep v post) :
    Smallest (castRank sortType) (l ++ post.filter keep) (replace sortType keep v post) ∧
      (replace sortType keep v post).length = v.length := by
  induction post generalizing v l with
  | nil => exact ⟨by rwa [filter_nil, append_nil], rfl⟩
  | cons e post ih =>
    obtain ⟨m, v, rfl⟩ := exists_cons_of_ne_nil hne
    have hroot : ∀ y ∈ m :: v, y.castRank sortType ≤ m.castRank sortType := by
      intro y hy
      obtain ⟨j, hj⟩ := mem_iff_getElem?.mp hy
      exact hheap.root_max rfl hj
    have hpeek : (m :: v)[0]! = m := rfl
    rw [ReplacesRight, hpeek] at hright
    rw [replace, foldl_cons, hpeek]
    split at hright
    · rename_i htake
      obtain ⟨-, hadjust, hright⟩ := hright
      obtain ⟨hless, hkeep⟩ := Bool.and_eq_true_iff.mp htake
      rw [if_pos htake, filter_cons_of_pos hkeep, ← singleton_append,
        ← append_assoc]
      have hsmall : Smallest (castRank sortType) (l ++ [e]) (emplacePeek sortType (m :: v) e) :=
        (h.replace (fun y hy => hroot y (mem_cons_of_mem m hy)) ((less_iff e m).mp hless)).perm
          emplacePeek_perm.symm
      have hlen := (@emplacePeek_perm _ sortType v m e).length_eq
      rw [length_cons] at hlen ⊢
      obtain ⟨hspec, hspecLen⟩ := ih (ne_nil_of_length_pos (by omega))
        (heapFrom_emplacePeek hheap hadjust) hsmall hright
      exact ⟨hspec, by rw [← hlen, ← hspecLen]; rfl⟩
    · rename_i htake
      rw [if_neg htake]
      by_cases hkeep : keep e = true
      · rw [filter_cons_of_pos hkeep, ← singleton_append, ← append_assoc]
        have hge : ¬e.castRank sortType < m.castRank sortType := fun hlt =>
          htake (Bool.and_eq_true_iff.mpr ⟨(less_iff e m).mpr hlt, hkeep⟩)
        exact ih hne hheap (h.skip fun y hy => (hroot y hy).trans (not_lt.mp hge)) hright
      · rw [filter_cons_of_neg hkeep]
        exact ih hne hheap h hright

/-- The heap keeps the first entries. -/
theorem getNumbersWhere_spec (hk : k ≠ 0) (hright : SelectsRight sortType keep arr k) :
    Smallest (castRank sortType) (arr.filter keep) (getNumbersWhere sortType keep arr k) ∧
      (getNumbersWhere sortType keep arr k).length = min k (arr.filter keep).length := by
  obtain ⟨pre, post, harr, hfill, hlen⟩ :=
    @fill_spec _ k keep [] (Nat.pos_of_ne_zero hk) arr
  rw [nil_append] at hfill
  obtain ⟨hbuild, hreplace⟩ := hright
  rw [getNumbersWhere, if_neg hk]
  dsimp only
  rw [hfill] at hlen hbuild hreplace ⊢
  split
  · rename_i hnil
    rw [hnil] at hlen
    have hpost : post = [] := by
      rcases hlen with hlen | hlen
      · exact absurd hlen.symm hk
      · exact hlen.1
    rw [harr, hpost, append_nil, hnil]
    exact ⟨Smallest.refl _ [], by simp⟩
  · rename_i hne
    obtain ⟨hheap, hperm⟩ := buildMaxHeap_spec hbuild
    have hdrop : ∃ xs, arr.drop k = xs ++ post ∧ ∀ e ∈ xs, e ∈ pre := by
      rw [harr, drop_append]
      rcases hlen with hlen | hlen
      · have hle : (pre.filter keep).length ≤ pre.length := length_filter_le _ _
        refine ⟨pre.drop k, ?_, fun e => mem_of_mem_drop⟩
        rw [Nat.sub_eq_zero_of_le (by omega), drop_zero]
      · refine ⟨pre.drop k, ?_, fun e => mem_of_mem_drop⟩
        rw [hlen.1, drop_nil]
    obtain ⟨xs, hxs, hpre⟩ := hdrop
    rw [hxs] at hreplace ⊢
    obtain ⟨heq, hright⟩ := replace_append (fun e he hkeep =>
      hperm.mem_iff.mpr (mem_filter.mpr ⟨hpre e he, hkeep⟩)) hreplace
    have hnonempty : buildMaxHeap sortType (pre.filter keep) ≠ [] := fun hnil =>
      hne (perm_nil.mp (hnil ▸ hperm.symm))
    obtain ⟨hsmall, hsize⟩ := smallest_replace hnonempty hheap
      ((Smallest.refl _ (pre.filter keep)).perm hperm.symm) hright
    rw [heq, harr, filter_append, hsize, hperm.length_eq, length_append]
    refine ⟨hsmall, ?_⟩
    rcases hlen with hlen | ⟨hpost, hlen⟩
    · omega
    · rw [hpost, filter_nil, length_nil]
      omega

theorem Distinct.filter {l : List (DocIdEntry ft)} (h : Distinct l) (keep : DocIdEntry ft → Bool) :
    Distinct (l.filter keep) := fun x hx y hy =>
  h x (mem_of_mem_filter hx) y (mem_of_mem_filter hy)

theorem Distinct.castRank_inj {l : List (DocIdEntry ft)} (h : Distinct l) :
    ∀ x ∈ l, ∀ y ∈ l, x.castRank sortType = y.castRank sortType → x = y :=
  fun x hx y hy hr => h x hx y hy (DocIdEntry.castRank_inj hr)

/-- In order, the entries that the heap keeps are the first ones. -/
theorem sortBy_getNumbersWhere (hk : k ≠ 0) (harr : Distinct arr)
    (hright : SelectsRight sortType keep arr k) :
    sortBy (castRank sortType) (getNumbersWhere sortType keep arr k) =
      (sortBy (castRank sortType) (arr.filter keep)).take k := by
  obtain ⟨hsmall, hlen⟩ := getNumbersWhere_spec hk hright
  have hsorted : (sortBy (castRank sortType) (arr.filter keep)).length = (arr.filter keep).length :=
    length_insertionSort _ _
  rw [hsmall.sort_eq (harr.filter keep).castRank_inj, hlen, ← hsorted]
  exact take_eq_take_min.symm

end Heap

end ISearch.OrderOp
