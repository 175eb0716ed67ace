import ISearch.OrderOp.Select

/-!
# Pages of the sorted documents

A page is a slice of the documents in order, and the pages of `search_after` are all of them, as
long as the heap selects right and string scores are ordered as their words are.
-/

namespace ISearch.OrderOp

open List
open KeyFormat (Bytes)
open DocIdEntry

variable {ft : FieldType} {sortType : SortType} {l : List (DocIdEntry ft)}

/-! ## Sorting -/

theorem sortEntries_eq (h : Distinct l) :
    sortEntries sortType l = sortBy (castRank sortType) l := by
  have hle : ∀ e other : DocIdEntry ft, (!other.less sortType e) = true ↔
      e.castRank sortType ≤ other.castRank sortType := by
    intro e other
    rw [Bool.not_eq_true', ← not_lt, ← less_iff, Bool.not_eq_true]
  refine eq_sortBy (mergeSort_perm l _) ?_ h.castRank_inj
  refine (pairwise_mergeSort (fun a b c hab hbc => ?_) (fun a b => ?_) l).imp fun h => ?_
  · exact (hle a c).mpr (((hle a b).mp hab).trans ((hle b c).mp hbc))
  · rw [Bool.or_eq_true, hle, hle]
    exact le_total _ _
  · exact (hle _ _).mp h

theorem insertEntry_perm {e : DocIdEntry ft} (h : ∀ x ∈ l, x.docId ≠ e.docId) :
    (insertEntry sortType e l).Perm (e :: l) := by
  induction l with
  | nil => exact List.Perm.refl _
  | cons x xs ih =>
    rw [insertEntry]
    split
    · exact List.Perm.refl _
    · rename_i hle
      have hlt : x.less sortType e = true := by
        rw [less_iff] at hle ⊢
        refine lt_of_le_of_ne (not_lt.mp hle) fun heq => ?_
        exact h x mem_cons_self (castRank_inj heq)
      rw [if_pos hlt]
      exact ((ih fun y hy => h y (mem_cons_of_mem x hy)).cons x).trans (List.Perm.swap e x xs)

theorem pairwise_insertEntry {e : DocIdEntry ft}
    (h : l.Pairwise fun x y => x.castRank sortType ≤ y.castRank sortType)
    (hne : ∀ x ∈ l, x.docId ≠ e.docId) :
    (insertEntry sortType e l).Pairwise fun x y => x.castRank sortType ≤ y.castRank sortType := by
  induction l with
  | nil => exact pairwise_singleton _ e
  | cons x xs ih =>
    obtain ⟨hx, hxs⟩ := pairwise_cons.mp h
    rw [insertEntry]
    split
    · rename_i hlt
      rw [less_iff] at hlt
      refine pairwise_cons.mpr ⟨fun y hy => ?_, h⟩
      rcases mem_cons.mp hy with rfl | hy
      · exact hlt.le
      · exact hlt.le.trans (hx y hy)
    · rename_i hle
      rw [less_iff, not_lt] at hle
      split
      · have hrest : ∀ y ∈ xs, y.docId ≠ e.docId := fun y hy => hne y (mem_cons_of_mem x hy)
        refine pairwise_cons.mpr ⟨fun y hy => ?_, ih hxs hrest⟩
        rcases mem_cons.mp ((insertEntry_perm hrest).mem_iff.mp hy) with rfl | hy
        · exact hle
        · exact hx y hy
      · exact h

/-- The set is the entries in order. -/
theorem foldl_insertEntry (h : (l.map (·.docId)).Nodup) :
    l.foldl (fun s e => insertEntry sortType e s) [] = sortBy (castRank sortType) l := by
  have hfold : ∀ (l s : List (DocIdEntry ft)), ((s ++ l).map (·.docId)).Nodup →
      (s.Pairwise fun x y => x.castRank sortType ≤ y.castRank sortType) →
      (l.foldl (fun s e => insertEntry sortType e s) s).Perm (s ++ l) ∧
        (l.foldl (fun s e => insertEntry sortType e s) s).Pairwise
          fun x y => x.castRank sortType ≤ y.castRank sortType := by
    intro l
    induction l with
    | nil => exact fun s _ hs => ⟨by rw [append_nil]; exact List.Perm.refl s, hs⟩
    | cons e l ih =>
      intro s hnodup hs
      rw [map_append, map_cons] at hnodup
      have hne : ∀ x ∈ s, x.docId ≠ e.docId := fun x hx =>
        (nodup_append.mp hnodup).2.2 _ (mem_map_of_mem hx) _ mem_cons_self
      have hperm : (insertEntry sortType e s ++ l).Perm (s ++ e :: l) :=
        ((insertEntry_perm hne).append_right l).trans perm_middle.symm
      obtain ⟨hp, hsorted⟩ := ih (insertEntry sortType e s)
        (by rwa [(hperm.map _).nodup_iff, map_append, map_cons])
        (pairwise_insertEntry hs hne)
      exact ⟨hp.trans hperm, hsorted⟩
  obtain ⟨hperm, hsorted⟩ := hfold l [] h List.Pairwise.nil
  refine eq_sortBy hperm hsorted fun x hx y hy hr => ?_
  exact inj_on_of_nodup_map h hx hy (castRank_inj hr)

/-- A page is a slice. -/
theorem pageLoop_eq (start count : Nat) (l : List (DocIdEntry ft)) (i : Nat) :
    pageLoop (fun _ => true) start (start + count - 1) (i - 1) l =
      (l.drop (start - i)).take (start + count - max i start) := by
  induction l generalizing i with
  | nil => simp [pageLoop]
  | cons e l ih =>
    have hnext : (i : Int) - 1 + 1 = ((i + 1 : Nat) : Int) - 1 := by omega
    rw [pageLoop, hnext, ih (i + 1), if_neg (by simp)]
    split
    · rw [show start - i = start - (i + 1) + 1 by omega, drop_succ_cons,
        show max i start = max (i + 1) start by omega]
    · rw [show start - i = 0 by omega, drop_zero]
      split
      · rw [show start + count - max i start = 0 by omega, take_zero]
      · rw [show start + count - max i start = start + count - max (i + 1) start + 1 by omega,
          take_succ_cons, show start - (i + 1) = 0 by omega, drop_zero]

theorem afterLoop_eq (count : Nat) (l : List (DocIdEntry ft)) :
    afterLoop (fun _ => true) count l = l.take count := by
  induction l generalizing count with
  | nil => cases count <;> simp [afterLoop]
  | cons e l ih =>
    cases count with
    | zero => rfl
    | succ count => rw [afterLoop, if_neg (by simp), ih, take_succ_cons]

/-! ## Pages -/

/-- The documents in (score, doc id) order of the direction. -/
def ScoreMap.inOrder (sortType : SortType) (scoreMap : ScoreMap ft) : List (DocIdEntry ft) :=
  sortBy (rank sortType) scoreMap.entries

/-- The pages one after the other, each asked for with the last entry of the page before, until
there is an empty one. -/
def pages (next : Option (DocIdEntry ft) → List (DocIdEntry ft)) :
    Nat → Option (DocIdEntry ft) → List (DocIdEntry ft)
  | 0, _ => []
  | n + 1, last =>
    match (next last).getLast? with
    | none => []
    | some e => next last ++ pages next n (some e)

/-- Successive pages of `count` entries, the first from the start. -/
def successive (sortType : SortType) (scoreMap : ScoreMap ft) (count : UInt32)
    (extraFilter : Option (Bytes → Bool)) (n : Nat) : List (DocIdEntry ft) :=
  pages (fun last => process sortType scoreMap last ⟨0, count, extraFilter⟩) n none

/-- Each path returns the slice of a page, and its successive pages are all documents. -/
structure PagesRight (sortType : SortType) (scoreMap : ScoreMap ft) (limitStart count : UInt32) :
    Prop where
  slice : process sortType scoreMap none ⟨limitStart, count, none⟩ =
    ((scoreMap.inOrder sortType).drop limitStart.toNat).take count.toNat
  setSlice : process sortType scoreMap none ⟨limitStart, count, some fun _ => true⟩ =
    ((scoreMap.inOrder sortType).drop limitStart.toNat).take count.toNat
  all : ∀ n, scoreMap.entries.length < n →
    successive sortType scoreMap count none n = scoreMap.inOrder sortType
  setAll : ∀ n, scoreMap.entries.length < n →
    successive sortType scoreMap count (some fun _ => true) n = scoreMap.inOrder sortType

/-- The last entries of the pages. -/
def lastEntries (sortType : SortType) (scoreMap : ScoreMap ft) (count : Nat) :
    List (DocIdEntry ft) :=
  (List.range scoreMap.entries.length).filterMap fun m =>
    ((scoreMap.inOrder sortType).take ((m + 1) * count)).getLast?

/-- The scores are in the order in which `operator<` compares them. -/
def CastKeeps (sortType : SortType) (scoreMap : ScoreMap ft) : Prop :=
  ∀ x ∈ scoreMap.entries, ∀ y ∈ scoreMap.entries,
    (x.castRank sortType < y.castRank sortType ↔ x.rank sortType < y.rank sortType)

/-- The heap selects right for a page and for the successive pages. -/
structure HeapsRight (sortType : SortType) (scoreMap : ScoreMap ft) (limitStart count : UInt32) :
    Prop where
  page : SelectsRight sortType (fun _ => true) scoreMap.entries (limitStart.toNat + count.toNat)
  first : SelectsRight sortType (fun _ => true) scoreMap.entries count.toNat
  after : ∀ last ∈ lastEntries sortType scoreMap count.toNat,
    SelectsRight sortType (fun e => last.less sortType e) scoreMap.entries count.toNat

section Pages

variable {scoreMap : ScoreMap ft}

theorem ScoreMap.inOrder_perm : (scoreMap.inOrder sortType).Perm scoreMap.entries := sortBy_perm _

theorem ScoreMap.nodup_docId (scoreMap : ScoreMap ft) :
    (scoreMap.entries.map (·.docId)).Nodup := by
  rw [nodup_iff_pairwise_ne, pairwise_map]
  exact scoreMap.sorted.imp fun h => h.ne

/-- Scores of type `int` are compared as they are. -/
theorem castKeeps_int (scoreMap : ScoreMap .int) : CastKeeps sortType scoreMap :=
  fun _ _ _ _ => Iff.rfl

theorem CastKeeps.inOrder_eq (h : CastKeeps sortType scoreMap) :
    sortBy (castRank sortType) scoreMap.entries = scoreMap.inOrder sortType := by
  refine (eq_sortBy scoreMap.inOrder_perm ?_ scoreMap.distinct.castRank_inj).symm
  refine (pairwise_sortBy scoreMap.entries).imp_of_mem fun {x y} hx hy hle => ?_
  rw [← not_lt] at hle ⊢
  exact fun hlt => hle ((h y (ScoreMap.inOrder_perm.mem_iff.mp hy) x
    (ScoreMap.inOrder_perm.mem_iff.mp hx)).mp hlt)

theorem CastKeeps.sortedBy (h : CastKeeps sortType scoreMap) :
    SortedBy (castRank sortType) (scoreMap.inOrder sortType) := by
  rw [← h.inOrder_eq]
  refine sortedBy_sortBy ?_
  rw [nodup_iff_pairwise_ne, pairwise_map]
  exact scoreMap.sorted.imp fun hlt heq => hlt.ne (castRank_inj heq)

/-- The entries behind the last of a page are those that are greater. -/
theorem CastKeeps.filter_eq_drop (h : CastKeeps sortType scoreMap) {n : Nat} {last : DocIdEntry ft}
    (hlast : ((scoreMap.inOrder sortType).take n).getLast? = some last) :
    (scoreMap.inOrder sortType).filter (fun e => last.less sortType e) =
      (scoreMap.inOrder sortType).drop n := by
  have hsorted := h.sortedBy
  rw [← take_append_drop n (scoreMap.inOrder sortType), SortedBy.append_iff] at hsorted
  obtain ⟨htake, -, hlt⟩ := hsorted
  conv_lhs => rw [← take_append_drop n (scoreMap.inOrder sortType)]
  rw [filter_append, filter_eq_nil_iff.mpr, nil_append, filter_eq_self.mpr]
  · intro e he
    rw [less_iff]
    exact hlt last (mem_of_getLast? hlast) e he
  · intro e he
    rw [less_iff, not_lt]
    exact htake.le_getLast hlast he

variable {limitStart count : UInt32}

theorem toInt32_eq {n : UInt32} (h : n.toNat < 2 ^ 31) : n.toInt32.toInt = n.toNat :=
  BitVec.toInt_eq_toNat_of_lt (x := n.toBitVec) (by rw [UInt32.toNat_toBitVec]; omega)

theorem toNat_limit (h : limitStart.toNat + count.toNat < 2 ^ 31) :
    (limitStart + count).toNat = limitStart.toNat + count.toNat := by
  rw [UInt32.toNat_add]
  omega

/-- The place of the last entry of a page. -/
theorem toInt32_final (hcount : 0 < count.toNat) (h : limitStart.toNat + count.toNat < 2 ^ 31) :
    (limitStart + count - 1).toInt32.toInt = (limitStart.toNat : Int) + count.toNat - 1 := by
  have hsum := toNat_limit h
  have hone : (1 : UInt32).toNat = 1 := rfl
  have hsub : (limitStart + count - 1).toNat = limitStart.toNat + count.toNat - 1 := by
    rw [UInt32.toNat_sub_of_le _ _ (by rw [UInt32.le_iff_toNat_le]; omega), hsum, hone]
  rw [toInt32_eq (by omega), hsub]
  omega

/-- A page of the entries in order. -/
theorem pageLoop_page (hcount : 0 < count.toNat) (h : limitStart.toNat + count.toNat < 2 ^ 31)
    (l : List (DocIdEntry ft)) :
    pageLoop (fun _ => true) limitStart.toInt32.toInt
      (limitStart + count - 1).toInt32.toInt (-1) l =
      (l.drop limitStart.toNat).take count.toNat := by
  have hloop := pageLoop_eq limitStart.toNat count.toNat l 0
  rw [toInt32_eq (by omega), toInt32_final hcount h]
  rw [show ((0 : Nat) : Int) - 1 = -1 by omega] at hloop
  rw [hloop, Nat.sub_zero, show limitStart.toNat + count.toNat - max 0 limitStart.toNat =
    count.toNat by omega]

theorem CastKeeps.process_set (hkeeps : CastKeeps sortType scoreMap) (hcount : 0 < count.toNat)
    (h : limitStart.toNat + count.toNat < 2 ^ 31) :
    process sortType scoreMap none ⟨limitStart, count, some fun _ => true⟩ =
      ((scoreMap.inOrder sortType).drop limitStart.toNat).take count.toNat := by
  simp only [process]
  rw [foldl_insertEntry scoreMap.nodup_docId, hkeeps.inOrder_eq, pageLoop_page hcount h]

/-- What the heap selects, in order. -/
theorem sortEntries_getNumbersWhere {keep : DocIdEntry ft → Bool} {k : Nat} (hk : k ≠ 0)
    (hkeeps : CastKeeps sortType scoreMap)
    (hright : SelectsRight sortType keep scoreMap.entries k) :
    sortEntries sortType (getNumbersWhere sortType keep scoreMap.entries k) =
      ((scoreMap.inOrder sortType).filter keep).take k := by
  have hdistinct := scoreMap.distinct
  have hsub : ∀ x ∈ getNumbersWhere sortType keep scoreMap.entries k, x ∈ scoreMap.entries := by
    obtain ⟨⟨rest, hperm, -⟩, -⟩ := getNumbersWhere_spec hk hright
    exact fun x hx => mem_of_mem_filter (hperm.mem_iff.mpr (mem_append_left rest hx))
  have hfilter : sortBy (castRank sortType) (scoreMap.entries.filter keep) =
      (scoreMap.inOrder sortType).filter keep :=
    (eq_sortBy (ScoreMap.inOrder_perm.filter keep)
      ((hkeeps.sortedBy.imp fun hlt => hlt.le).filter keep)
      (hdistinct.filter keep).castRank_inj).symm
  rw [sortEntries_eq fun x hx y hy => hdistinct x (hsub x hx) y (hsub y hy),
    sortBy_getNumbersWhere hk hdistinct hright, hfilter]

theorem CastKeeps.process_heap (hkeeps : CastKeeps sortType scoreMap) (hcount : 0 < count.toNat)
    (h : limitStart.toNat + count.toNat < 2 ^ 31)
    (hright : SelectsRight sortType (fun _ => true) scoreMap.entries
      (limitStart.toNat + count.toNat)) :
    process sortType scoreMap none ⟨limitStart, count, none⟩ =
      ((scoreMap.inOrder sortType).drop limitStart.toNat).take count.toNat := by
  have hsum := toNat_limit h
  have hlimit : (limitStart + count).toInt32.toInt.toNat = limitStart.toNat + count.toNat := by
    rw [toInt32_eq (by omega), hsum, Int.toNat_natCast]
  simp only [process]
  rw [hlimit, getNumbers, sortEntries_getNumbersWhere (by omega) hkeeps hright,
    pageLoop_page hcount h, filter_true, drop_take, take_take,
    show min count.toNat (limitStart.toNat + count.toNat - limitStart.toNat) = count.toNat by omega]

/-! ## Successive pages -/

/-- Pages that are the slices of a list are the list. -/
theorem pages_eq {next : Option (DocIdEntry ft) → List (DocIdEntry ft)} {size : Nat}
    (hsize : 0 < size)
    (hnext : ∀ m, next (l.take (m * size)).getLast? = (l.drop (m * size)).take size) (n m : Nat)
    (hn : l.length < n + m) : pages next n (l.take (m * size)).getLast? = l.drop (m * size) := by
  induction n generalizing m with
  | zero =>
    have hle : m ≤ m * size := Nat.le_mul_of_pos_right m hsize
    rw [drop_eq_nil_of_le (by omega), pages]
  | succ n ih =>
    have hstep : (m + 1) * size = m * size + size := Nat.succ_mul m size
    rw [pages, hnext]
    cases hlast : ((l.drop (m * size)).take size).getLast? with
    | none =>
      rw [List.getLast?_eq_none_iff, take_eq_nil_iff] at hlast
      exact (hlast.resolve_left (by omega)).symm
    | some e =>
      have hnextLast : (l.take ((m + 1) * size)).getLast? = some e := by
        rw [hstep, take_add, List.getLast?_append, hlast, Option.some_or]
      dsimp only
      rw [← hnextLast, ih (m + 1) (by omega), hstep, ← drop_drop, take_append_drop]

/-- The last entry of a page is in the list of them. -/
theorem mem_lastEntries {size m : Nat} {last : DocIdEntry ft} (hsize : 0 < size)
    (h : ((scoreMap.inOrder sortType).take (m * size)).getLast? = some last) :
    last ∈ lastEntries sortType scoreMap size := by
  have hlen : (scoreMap.inOrder sortType).length = scoreMap.entries.length :=
    ScoreMap.inOrder_perm.length_eq
  have hpos : 0 < scoreMap.entries.length := by
    rw [← hlen]
    exact length_pos_of_mem (mem_of_mem_take (mem_of_getLast? h))
  have hm : m ≠ 0 := by
    rintro rfl
    rw [Nat.zero_mul, take_zero] at h
    cases h
  refine mem_filterMap.mpr ?_
  by_cases hlt : m ≤ scoreMap.entries.length
  · exact ⟨m - 1, mem_range.mpr (by omega), by rwa [Nat.sub_add_cancel (by omega)]⟩
  · -- beyond the last page the documents end with the same entry
    refine ⟨scoreMap.entries.length - 1, mem_range.mpr (by omega), ?_⟩
    have hfirst : scoreMap.entries.length ≤ scoreMap.entries.length * size :=
      Nat.le_mul_of_pos_right _ hsize
    have hsecond : m ≤ m * size := Nat.le_mul_of_pos_right m hsize
    rw [Nat.sub_add_cancel hpos, take_of_length_le (by omega)]
    rwa [take_of_length_le (by omega)] at h

/-- The first page and the pages behind a last entry are all documents. -/
theorem CastKeeps.successive_eq (hkeeps : CastKeeps sortType scoreMap) (hcount : 0 < count.toNat)
    {extraFilter : Option (Bytes → Bool)}
    (hfirst : process sortType scoreMap none ⟨0, count, extraFilter⟩ =
      (scoreMap.inOrder sortType).take count.toNat)
    (hafter : ∀ last ∈ lastEntries sortType scoreMap count.toNat,
      process sortType scoreMap (some last) ⟨0, count, extraFilter⟩ =
        ((scoreMap.inOrder sortType).filter fun e => last.less sortType e).take count.toNat)
    {n : Nat} (hn : scoreMap.entries.length < n) :
    successive sortType scoreMap count extraFilter n = scoreMap.inOrder sortType := by
  have hlen : (scoreMap.inOrder sortType).length = scoreMap.entries.length :=
    ScoreMap.inOrder_perm.length_eq
  have hnext : ∀ m, process sortType scoreMap
      ((scoreMap.inOrder sortType).take (m * count.toNat)).getLast? ⟨0, count, extraFilter⟩ =
        ((scoreMap.inOrder sortType).drop (m * count.toNat)).take count.toNat := by
    intro m
    cases hlast : ((scoreMap.inOrder sortType).take (m * count.toNat)).getLast? with
    | none =>
      rw [List.getLast?_eq_none_iff, take_eq_nil_iff] at hlast
      rcases hlast with hzero | hnil
      · rw [hfirst, hzero, drop_zero]
      · rw [hfirst, hnil, drop_nil]
    | some last =>
      rw [hafter last (mem_lastEntries hcount hlast), hkeeps.filter_eq_drop hlast]
  have hpages := @pages_eq _ (scoreMap.inOrder sortType)
    (fun last => process sortType scoreMap last ⟨0, count, extraFilter⟩) _ hcount hnext n 0
      (by omega)
  rwa [Nat.zero_mul, take_zero, drop_zero] at hpages

theorem CastKeeps.successive_set (hkeeps : CastKeeps sortType scoreMap) (hcount : 0 < count.toNat)
    (h : count.toNat < 2 ^ 31) {n : Nat} (hn : scoreMap.entries.length < n) :
    successive sortType scoreMap count (some fun _ => true) n = scoreMap.inOrder sortType := by
  have hzero : (0 : UInt32).toNat = 0 := rfl
  refine hkeeps.successive_eq hcount (hkeeps.process_set hcount (by omega)) (fun last _ => ?_) hn
  have hdrop : (scoreMap.inOrder sortType).dropWhile (fun e => !last.less sortType e) =
      (scoreMap.inOrder sortType).filter fun e => last.less sortType e := by
    have hpair : (scoreMap.inOrder sortType).Pairwise fun x y =>
        (!last.less sortType y) = true → (!last.less sortType x) = true := by
      refine hkeeps.sortedBy.imp fun hlt hy => ?_
      rw [Bool.not_eq_true', ← Bool.not_eq_true, less_iff, not_lt] at hy ⊢
      exact hlt.le.trans hy
    simpa using dropWhile_eq_filter_of_pairwise hpair
  simp only [process]
  rw [foldl_insertEntry scoreMap.nodup_docId, hkeeps.inOrder_eq, toInt32_eq h, Int.toNat_natCast,
    afterLoop_eq, hdrop]

theorem CastKeeps.successive_heap (hkeeps : CastKeeps sortType scoreMap) (hcount : 0 < count.toNat)
    (h : count.toNat < 2 ^ 31) (hright : HeapsRight sortType scoreMap limitStart count)
    {n : Nat} (hn : scoreMap.entries.length < n) :
    successive sortType scoreMap count none n = scoreMap.inOrder sortType := by
  have hzero : (0 : UInt32).toNat = 0 := rfl
  refine hkeeps.successive_eq hcount (hkeeps.process_heap hcount (by omega) ?_)
    (fun last hl => ?_) hn
  · rw [hzero, Nat.zero_add]
    exact hright.first
  · simp only [process]
    rw [toInt32_eq h, Int.toNat_natCast, getNumbersAfter,
      sortEntries_getNumbersWhere (by omega) hkeeps (hright.after last hl), take_take,
      Nat.min_self]

end Pages

/-- Pages are right where no heap stops at a greater entry of the same score and no entry is met
again that is kept, and where string scores are in the order of their words. -/
theorem pagesRight_of_heapsRight (scoreMap : ScoreMap ft) {limitStart count : UInt32}
    (hcount : 0 < count) (hsum : limitStart.toNat + count.toNat < 2 ^ 31)
    (hkeeps : CastKeeps sortType scoreMap)
    (hright : HeapsRight sortType scoreMap limitStart count) :
    PagesRight sortType scoreMap limitStart count := by
  have hpos : 0 < count.toNat := UInt32.lt_iff_toNat_lt.mp hcount
  exact {
    slice := hkeeps.process_heap hpos hsum hright.page
    setSlice := hkeeps.process_set hpos hsum
    all := fun _ => hkeeps.successive_heap hpos (by omega) hright
    setAll := fun _ => hkeeps.successive_set hpos (by omega) }

/-- Two documents of one score, and one of a lower score. -/
def tied : ScoreMap .int where
  entries := [⟨[97], (5 : Int)⟩, ⟨[98], (5 : Int)⟩, ⟨[99], (1 : Int)⟩]
  sorted := by
    rw [SortedBy]
    decide

/-- The heap keeps the second of the two documents at its root's place and drops the first. -/
theorem not_pagesRight_tied : ¬PagesRight .asc tied 0 2 := by
  intro h
  have hslice := h.slice
  have hget : getNumbers .asc tied.entries ((0 + 2 : UInt32).toInt32.toInt.toNat) =
      [⟨[98], (5 : Int)⟩, ⟨[99], (1 : Int)⟩] := by decide
  have hdistinct : Distinct [(⟨[98], (5 : Int)⟩ : DocIdEntry .int), ⟨[99], (1 : Int)⟩] := by
    rw [Distinct]
    decide
  simp only [process] at hslice
  rw [hget, sortEntries_eq hdistinct] at hslice
  revert hslice
  decide

/-- Downwards, the same two documents are met in the order of the heap. -/
theorem pagesRight_tied_desc : PagesRight .desc tied 0 2 :=
  pagesRight_of_heapsRight tied (by decide) (by decide) (castKeeps_int tied)
    ⟨by decide, by decide, by decide⟩

end ISearch.OrderOp
