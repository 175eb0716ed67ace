import Mathlib.Data.Finset.Sort
import ISearch.IndexSync.SetRange
import ISearch.KeyFormat.Decimals

/-!
# Paging through a range (`PreTerminal` of `range_query_process.cc`)

A terminal query reads the documents of a range in windows that double in size, until a page is full
or eleven windows are read. The range search is taken to return the slices that it is asked for, of
the documents in the order of key and document id.
-/

namespace ISearch.TerminalQuery

open List
open IndexSync (Bytes RangeType inRange intText)

/-- The values of an integer field. -/
abbrev Key := {k : Int // -(2 ^ 31) ≤ k ∧ k < 2 ^ 31}

/-- A document id with the value of the field, by value and id. -/
abbrev Doc := Key ×ₗ Bytes

def Doc.score (d : Doc) : Int := (ofLex d).1.val

def Doc.doc_id (d : Doc) : Bytes := (ofLex d).2

structure FieldInfo where
  segment_tag : Nat
  range_type : RangeType
  start : ℚ
  stop : ℚ

def SEGMENT_RANGE : Nat := 5

/-- What a terminal query reads of its request, and the documents that the extra filters pass. The
text of `last_score` is any that stands for a number. -/
structure Query where
  and_keys : List (List FieldInfo)
  page_size : UInt32
  ascending : Bool
  last_id : Bytes
  last_score : Bytes
  last_value : ℚ
  last_number : KeyFormat.atof last_score = some last_value
  checkDocByExtraFilterKey : Bytes → Bool

variable (index : Finset Doc) (q : Query)

/-- The documents of a range in the order of the query. -/
def rangeDocs (f : FieldInfo) (ascending : Bool) : List Doc :=
  let l := (index.filter fun d => inRange f.start f.stop f.range_type (d.score : ℚ)).sort
  if ascending then l else l.reverse

/-- The documents that windows are cut from: none unless the query is a single range. -/
def Query.docs : List Doc :=
  match q.and_keys with
  | [[f]] => if f.segment_tag ≠ SEGMENT_RANGE then [] else rangeDocs index f q.ascending
  | _ => []

def Query.processTerminal (limit_start page_size : UInt32) : List Doc :=
  ((q.docs index).drop limit_start.toNat).take page_size.toNat

/-- The conversion to `int`; a number that does not fit gives the least one. -/
def castInt (score : Int) : Int := if -(2 ^ 31) ≤ score ∧ score < 2 ^ 31 then score else -(2 ^ 31)

/-- The documents that are taken for returned already. -/
def Query.skips (d : Doc) : Bool :=
  q.last_id ≠ [] ∧ intText (castInt d.score) = q.last_score ∧
    if q.ascending then d.doc_id ≤ q.last_id else q.last_id ≤ d.doc_id

structure State where
  count : UInt32
  N : UInt32
  limit_start : UInt32
  candidate_doc : List Doc
  /-- The windows that were asked for, by start and size. -/
  windows : List (UInt32 × UInt32)

def Query.accept (s : State) (d : Doc) : State :=
  if q.skips d then s
  else if q.checkDocByExtraFilterKey d.doc_id then
    { s with count := s.count + 1, candidate_doc := s.candidate_doc ++ [d] }
  else s

/-- A round of the loop. -/
def Query.round (s : State) : State :=
  let page_size := q.page_size * s.N
  let s' := (q.processTerminal index s.limit_start page_size).foldl q.accept s
  { s' with
    limit_start := s.limit_start + q.page_size * s.N
    N := s.N * 2
    windows := s.windows ++ [(s.limit_start, page_size)] }

/-- The loop with the tries that are left. -/
def Query.loop : Nat → State → State
  | 0, s => s
  | tries + 1, s => if s.count < q.page_size then loop tries (q.round index s) else s

def Query.getValidDoc : State := q.loop index 11 ⟨0, 2, 0, [], []⟩

/-- The order of the query. -/
def Query.Precedes (d d' : Doc) : Prop := if q.ascending then d < d' else d' < d

/-- Strictly behind the continuation point, if there is one. -/
def Query.After (d : Doc) : Prop :=
  q.last_id ≠ [] → if q.ascending then
    (toLex (q.last_value, q.last_id) : ℚ ×ₗ Bytes) < toLex ((d.score : ℚ), d.doc_id)
  else (toLex ((d.score : ℚ), d.doc_id) : ℚ ×ₗ Bytes) < toLex (q.last_value, q.last_id)

instance (d : Doc) : Decidable (q.After d) := by
  unfold Query.After
  infer_instance

/-- The documents of windows. -/
def Query.scanned (windows : List (UInt32 × UInt32)) : List Doc :=
  windows.flatMap fun w => q.processTerminal index w.1 w.2

/-- The windows follow each other, and the candidates are documents behind the continuation point
that pass the filter, in order, a page of them if the windows hold that many. -/
structure Query.PagesRight : Prop where
  windows : (q.getValidDoc index).windows.IsChain fun w w' => w'.1.toNat = w.1.toNat + w.2.toNat
  sorted : (q.getValidDoc index).candidate_doc.Pairwise q.Precedes
  mem : ∀ d ∈ (q.getValidDoc index).candidate_doc,
    d ∈ q.docs index ∧ q.After d ∧ q.checkDocByExtraFilterKey d.doc_id = true
  enough : q.page_size.toNat ≤ (((q.scanned index (q.getValidDoc index).windows)).filter fun d =>
      q.After d ∧ q.checkDocByExtraFilterKey d.doc_id).length →
    q.page_size.toNat ≤ (q.getValidDoc index).candidate_doc.length

/-- `N` in a round. -/
def factor : Nat → UInt32
  | 0 => 2
  | n + 1 => factor n * 2

/-- The size of the window of a round. -/
def Query.windowSize (n : Nat) : UInt32 := q.page_size * factor n

/-- The start of the window of a round. -/
def Query.windowStart : Nat → UInt32
  | 0 => 0
  | n + 1 => windowStart n + q.windowSize n

/-- The windows of the first rounds. -/
def Query.windowsUpTo (n : Nat) : List (UInt32 × UInt32) :=
  (List.range n).map fun k => (q.windowStart k, q.windowSize k)

/-- The documents that the first rounds keep. -/
def Query.kept (n : Nat) : List Doc :=
  (q.scanned index (q.windowsUpTo n)).filter fun d =>
    !q.skips d && q.checkDocByExtraFilterKey d.doc_id

/-- The page is not full after the first rounds, nor before. -/
def Query.LeavesOpen (n : Nat) : Prop :=
  ∀ k ≤ n, UInt32.ofNat (q.kept index k).length < q.page_size

/-- The number of documents that the first windows hold room for. -/
def Query.reach (n : Nat) : Nat := ((List.range n).map fun k => (q.windowSize k).toNat).sum

/-- A score before that of the continuation point, or the same one in another text and an id that is
not behind. -/
def Query.ReturnsAgain (d : Doc) : Prop :=
  q.last_id ≠ [] ∧ if q.ascending then
    (d.score : ℚ) < q.last_value ∨
      ((d.score : ℚ) = q.last_value ∧ d.doc_id ≤ q.last_id) ∧ intText d.score ≠ q.last_score
  else
    q.last_value < d.score ∨
      (q.last_value = d.score ∧ q.last_id ≤ d.doc_id) ∧ intText d.score ≠ q.last_score

/-- No window but the last one overflows, and none of the documents that the eleven windows reach
passes the filter and is returned again. -/
structure Query.Continues : Prop where
  fits : ∀ n < 10, q.LeavesOpen index (n + 1) →
    (q.windowStart n).toNat + (q.windowSize n).toNat < 2 ^ 32
  none_before : ∀ d ∈ (q.docs index).take (q.reach 11),
    q.checkDocByExtraFilterKey d.doc_id = true → ¬q.ReturnsAgain d

/-! ## Rounds -/

variable {index q}

/-- The state after the first rounds. -/
def Query.stateAt (q : Query) (index : Finset Doc) (n : Nat) : State where
  count := UInt32.ofNat (q.kept index n).length
  N := factor n
  limit_start := q.windowStart n
  candidate_doc := q.kept index n
  windows := q.windowsUpTo n

theorem Query.foldl_accept (l : List Doc) (s : State) : l.foldl q.accept s =
    { s with
      count := s.count + UInt32.ofNat (l.filter fun d =>
        !q.skips d && q.checkDocByExtraFilterKey d.doc_id).length
      candidate_doc := s.candidate_doc ++ l.filter fun d =>
        !q.skips d && q.checkDocByExtraFilterKey d.doc_id } := by
  induction l generalizing s with
  | nil => simp
  | cons d l ih =>
    rw [foldl_cons, ih, accept]
    split_ifs with hskip hcheck
    · rw [filter_cons_of_neg (by simp [hskip])]
    · rw [filter_cons_of_pos (by simp [hskip, hcheck]), length_cons,
        UInt32.ofNat_add, append_assoc]
      simp only [singleton_append]
      congr 1
      exact (UInt32.add_assoc _ _ _).trans (congrArg _ (UInt32.add_comm _ _))
    · rw [filter_cons_of_neg (by simp [hcheck])]

theorem Query.windowsUpTo_succ (n : Nat) :
    q.windowsUpTo (n + 1) = q.windowsUpTo n ++ [(q.windowStart n, q.windowSize n)] := by
  rw [windowsUpTo, range_succ, map_append]
  rfl

theorem Query.round_stateAt (n : Nat) :
    q.round index (q.stateAt index n) = q.stateAt index (n + 1) := by
  have hkept : q.kept index (n + 1) = q.kept index n ++
      (q.processTerminal index (q.windowStart n) (q.windowSize n)).filter fun d =>
        !q.skips d && q.checkDocByExtraFilterKey d.doc_id := by
    rw [kept, windowsUpTo_succ, scanned, flatMap_append, filter_append]
    rw [flatMap_singleton]
    rfl
  rw [round, foldl_accept]
  simp only [stateAt, hkept, length_append, UInt32.ofNat_add, windowsUpTo_succ]
  rfl

theorem Query.loop_stateAt (tries n : Nat) : ∃ r, n ≤ r ∧ r ≤ n + tries ∧
    q.loop index tries (q.stateAt index n) = q.stateAt index r ∧
    (∀ k, n ≤ k → k < r → UInt32.ofNat (q.kept index k).length < q.page_size) ∧
    (r = n + tries ∨ ¬UInt32.ofNat (q.kept index r).length < q.page_size) := by
  induction tries generalizing n with
  | zero => exact ⟨n, le_rfl, le_rfl, rfl, fun k hk hlt => absurd hk (Nat.not_le.mpr hlt), .inl rfl⟩
  | succ tries ih =>
    rw [loop]
    split
    · rename_i hopen
      obtain ⟨r, hle, hr, heq, hall, hend⟩ := ih (n + 1)
      refine ⟨r, Nat.le_of_succ_le hle, by omega, by rw [round_stateAt, heq], fun k hk hlt => ?_,
        hend.imp_left fun h => by omega⟩
      obtain rfl | hlt' := hk.eq_or_lt
      · exact hopen
      · exact hall k hlt' hlt
    · rename_i hfull
      exact ⟨n, le_rfl, by omega, rfl, fun k hk hlt => absurd hk (Nat.not_le.mpr hlt), .inr hfull⟩

variable (q index) in
/-- The loop ends after the first round that fills the page, or after eleven. -/
theorem Query.getValidDoc_eq : ∃ r ≤ 11, q.getValidDoc index = q.stateAt index r ∧
    (∀ k < r, q.LeavesOpen index k) ∧ (r = 11 ∨ ¬q.LeavesOpen index r) := by
  obtain ⟨r, -, hr, heq, hall, hend⟩ := @loop_stateAt index q 11 0
  refine ⟨r, by omega, heq, fun k hk j hj => hall j j.zero_le (hj.trans_lt hk),
    hend.imp (fun h => by omega) fun hfull hopen => hfull (hopen r le_rfl)⟩

theorem Query.reach_succ (n : Nat) : q.reach (n + 1) = q.reach n + (q.windowSize n).toNat := by
  rw [reach, range_succ, map_append, sum_append]
  rfl

theorem Query.reach_mono {n m : Nat} (h : n ≤ m) : q.reach n ≤ q.reach m := by
  induction m, h using Nat.le_induction with
  | base => exact le_rfl
  | succ m _ ih =>
    rw [reach_succ]
    omega

theorem Query.windowStart_eq {n : Nat}
    (h : ∀ k < n, (q.windowStart k).toNat + (q.windowSize k).toNat < 2 ^ 32) :
    (q.windowStart n).toNat = q.reach n := by
  induction n with
  | zero => rfl
  | succ n ih =>
    rw [windowStart, UInt32.toNat_add, Nat.mod_eq_of_lt (h n n.lt_succ_self), reach_succ,
      ih fun k hk => h k (Nat.lt_succ_of_lt hk)]

/-- Windows that follow each other hold the first documents. -/
theorem Query.scanned_eq {n : Nat} (h : ∀ k < n, (q.windowStart k).toNat = q.reach k) :
    q.scanned index (q.windowsUpTo n) = (q.docs index).take (q.reach n) := by
  induction n with
  | zero => rfl
  | succ n ih =>
    rw [windowsUpTo_succ, scanned, flatMap_append, flatMap_singleton, processTerminal,
      h n n.lt_succ_self, reach_succ, take_add]
    exact congrArg (· ++ _) (ih fun k hk => h k (Nat.lt_succ_of_lt hk))

theorem castInt_score (d : Doc) : castInt d.score = d.score := if_pos (ofLex d).1.property

theorem atof_intText (n : Int) : KeyFormat.atof (intText n) = some (n : ℚ) := by
  obtain ⟨c, s, hcs⟩ := exists_cons_of_ne_nil (KeyFormat.decimal_ne_nil n.natAbs)
  have hdigits : ∀ x ∈ c :: s, KeyFormat.isDigit x = true := hcs ▸ KeyFormat.isDigit_of_mem_decimal
  have hhead {x : UInt8} (hx : s.head? = some x) : KeyFormat.isDigit x = true :=
    hdigits x (mem_cons_of_mem _ (mem_of_head? hx))
  have hnumber := KeyFormat.atof_of_digit (hdigits c mem_cons_self)
    ⟨fun h => absurd (hhead h) (by decide), fun h => absurd (hhead h) (by decide)⟩
  rw [← hcs, KeyFormat.decimalNumber_decimal, Nat.cast_natAbs] at hnumber
  rw [intText]
  split_ifs with hn
  · rw [hnumber.2, Int.cast_abs, abs_of_neg (Int.cast_lt_zero.mpr hn), neg_neg]
  · rw [hnumber.1, Int.cast_abs, abs_of_nonneg (Int.cast_nonneg (not_lt.mp hn))]

theorem Query.skips_iff {d : Doc} : q.skips d = true ↔ q.last_id ≠ [] ∧
    intText d.score = q.last_score ∧
    if q.ascending then d.doc_id ≤ q.last_id else q.last_id ≤ d.doc_id := by
  rw [skips, decide_eq_true_eq, castInt_score]

/-- A score in the text of `last_score` is the number that it stands for. -/
theorem Query.score_eq {d : Doc} (h : intText d.score = q.last_score) :
    (d.score : ℚ) = q.last_value :=
  Option.some.inj ((atof_intText _).symm.trans ((congrArg KeyFormat.atof h).trans q.last_number))

theorem Query.after_iff {d : Doc} : q.After d ↔ ¬q.ReturnsAgain d ∧ ¬q.skips d = true := by
  have heq := @score_eq q d
  rw [skips_iff, After, ReturnsAgain]
  by_cases hid : q.last_id = []
  · simp [hid]
  · simp only [ne_eq, hid, not_false_eq_true, true_and, forall_const]
    split
    · rw [← not_le, Prod.Lex.toLex_le_toLex]
      tauto
    · rw [← not_le, Prod.Lex.toLex_le_toLex]
      have heq' : intText d.score = q.last_score → q.last_value = d.score := fun h => (heq h).symm
      tauto

theorem Doc.score_le {d d' : Doc} (h : d < d') :
    d.score < d'.score ∨ d.score = d'.score ∧ d.doc_id ≤ d'.doc_id := by
  obtain hlt | ⟨heq, hid⟩ := Prod.Lex.lt_iff.mp h
  · exact .inl hlt
  · exact .inr ⟨congrArg Subtype.val heq, hid.le⟩

theorem Query.Precedes.returnsAgain {d d' : Doc} (h : q.Precedes d d') (hd' : q.ReturnsAgain d') :
    q.ReturnsAgain d := by
  refine ⟨hd'.1, ?_⟩
  have hscore := hd'.2
  rw [Precedes] at h
  split_ifs at h hscore ⊢
  · obtain hlt | ⟨heq, hid⟩ := Doc.score_le h
    · have hlt : (d.score : ℚ) < d'.score := Int.cast_lt.mpr hlt
      exact .inl (hscore.elim hlt.trans fun h => hlt.trans_eq h.1.1)
    · rw [heq]
      exact hscore.imp_right fun h => ⟨⟨h.1.1, hid.trans h.1.2⟩, h.2⟩
  · obtain hlt | ⟨heq, hid⟩ := Doc.score_le h
    · have hlt : (d'.score : ℚ) < d.score := Int.cast_lt.mpr hlt
      exact .inl (hscore.elim (fun h => h.trans hlt) fun h => h.1.1.trans_lt hlt)
    · rw [← heq]
      exact hscore.imp_right fun h => ⟨⟨h.1.1, h.1.2.trans hid⟩, h.2⟩

theorem Query.docs_pairwise : (q.docs index).Pairwise q.Precedes := by
  rw [docs]
  split
  · split
    · exact .nil
    · rename_i f _ _
      have hsorted := ((index.filter fun d =>
        inRange f.start f.stop f.range_type (d.score : ℚ)).sortedLT_sort).pairwise
      rw [rangeDocs]
      cases hasc : q.ascending with
      | true =>
        refine hsorted.imp fun h => ?_
        rw [Precedes, hasc]
        exact h
      | false =>
        refine pairwise_reverse.mpr (hsorted.imp fun h => ?_)
        rw [Precedes, hasc]
        exact h
  · exact .nil

/-! ## Whole queries -/

theorem Query.LeavesOpen.mono {n m : Nat} (h : q.LeavesOpen index m) (hle : n ≤ m) :
    q.LeavesOpen index n := fun k hk => h k (hk.trans hle)

theorem Query.getElem_windowsUpTo {r n : Nat} (hn : n < (q.windowsUpTo r).length) :
    (q.windowsUpTo r)[n] = (q.windowStart n, q.windowSize n) := by
  simp only [windowsUpTo, getElem_map, getElem_range]

theorem Query.length_windowsUpTo (r : Nat) : (q.windowsUpTo r).length = r := by
  rw [windowsUpTo, length_map, length_range]

theorem Query.exists_window {i m : Nat} (h : i < q.reach m) :
    ∃ n < m, q.reach n ≤ i ∧ i < q.reach (n + 1) := by
  induction m with
  | zero => exact absurd h (Nat.not_lt_zero _)
  | succ m ih =>
    obtain hlt | hle := Nat.lt_or_ge i (q.reach m)
    · obtain ⟨n, hn, hwindow⟩ := ih hlt
      exact ⟨n, Nat.lt_succ_of_lt hn, hwindow⟩
    · exact ⟨m, m.lt_succ_self, hle, h⟩

theorem Query.page_size_pos {n : Nat} (h : 0 < q.reach n) : 0 < q.page_size := by
  rw [UInt32.lt_iff_toNat_lt]
  refine Nat.pos_of_ne_zero fun hzero => h.ne' ?_
  have hsize : ∀ k, (q.windowSize k).toNat = 0 := by
    intro k
    rw [windowSize, UInt32.toNat_mul, hzero, Nat.zero_mul]
  clear h
  induction n with
  | zero => rfl
  | succ n ih => rw [reach_succ, ih, hsize]

theorem Query.PagesRight.fits (h : q.PagesRight index) {n : Nat} (hn : n < 10)
    (hopen : q.LeavesOpen index (n + 1)) :
    (q.windowStart n).toNat + (q.windowSize n).toNat < 2 ^ 32 := by
  obtain ⟨r, -, heq, -, hend⟩ := q.getValidDoc_eq index
  have hlt : n + 1 < r := by
    by_contra hle
    obtain rfl | hfull := hend
    · omega
    · exact hfull (hopen.mono (not_lt.mp hle))
  have hchain := h.windows
  rw [heq] at hchain
  change (q.windowsUpTo r).IsChain _ at hchain
  rw [isChain_iff_getElem] at hchain
  have hnext := hchain n (by rwa [length_windowsUpTo])
  simp only [getElem_windowsUpTo] at hnext
  rw [← hnext]
  exact UInt32.toNat_lt _

theorem Query.PagesRight.none_before (h : q.PagesRight index) {i : Nat}
    (hi : i < (q.docs index).length) (hreach : i < q.reach 11)
    (hcheck : q.checkDocByExtraFilterKey (q.docs index)[i].doc_id = true) :
    ¬q.ReturnsAgain (q.docs index)[i] := by
  induction i using Nat.strong_induction_on with
  | _ i ih =>
    intro hbefore
    -- the documents in front of it do not pass the filter
    have hnone : ∀ d ∈ (q.docs index).take i, q.checkDocByExtraFilterKey d.doc_id = false := by
      intro d hd
      obtain ⟨j, hj, rfl⟩ := mem_take_iff_getElem.mp hd
      have hji : j < i := (lt_min_iff.mp hj).1
      have hprecedes := pairwise_iff_getElem.mp q.docs_pairwise j i (hji.trans hi) hi hji
      rw [Bool.eq_false_iff]
      exact fun hcheck => ih j hji (hji.trans hi) (hji.trans hreach) hcheck
        (hprecedes.returnsAgain hbefore)
    obtain ⟨n, hn, hle, hlt⟩ := exists_window hreach
    have hpos := page_size_pos (Nat.zero_lt_of_lt hreach)
    have hopen : ∀ m ≤ n, (∀ k < m, (q.windowStart k).toNat = q.reach k) →
        q.LeavesOpen index m := by
      intro m hm hstart k hk
      have hkept : q.kept index k = [] := by
        rw [kept, scanned_eq fun j hj => hstart j (hj.trans_le hk), filter_eq_nil_iff]
        intro d hd
        have hreach := (reach_mono (hk.trans hm)).trans hle
        rw [hnone d (take_subset_take_left (q.docs index) hreach hd), Bool.and_false]
        exact Bool.false_ne_true
      rw [hkept]
      exact hpos
    have hstart : ∀ k ≤ n, (q.windowStart k).toNat = q.reach k := by
      intro k
      induction k using Nat.strong_induction_on with
      | _ k ihk =>
        intro hk
        cases k with
        | zero => rfl
        | succ k =>
          have hfits := h.fits (by omega) (hopen (k + 1) hk fun j hj => ihk j hj (by omega))
          rw [windowStart, UInt32.toNat_add, Nat.mod_eq_of_lt hfits, reach_succ,
            ihk k k.lt_succ_self (by omega)]
    obtain ⟨r, -, heq, -, hend⟩ := q.getValidDoc_eq index
    have hnr : n < r := by
      by_contra hrn
      obtain rfl | hfull := hend
      · exact hrn hn
      · exact hfull ((hopen n le_rfl fun k hk => hstart k hk.le).mono (not_lt.mp hrn))
    have hskip : ¬q.skips (q.docs index)[i] = true := by
      rw [skips_iff]
      rintro ⟨-, htext, -⟩
      have hagain := hbefore.2
      rw [score_eq htext] at hagain
      split_ifs at hagain
      · exact hagain.elim (lt_irrefl _) fun h => h.2 htext
      · exact hagain.elim (lt_irrefl _) fun h => h.2 htext
    have hscanned : (q.docs index)[i] ∈ q.scanned index (q.windowsUpTo r) := by
      refine mem_flatMap.mpr ⟨(q.windowStart n, q.windowSize n),
        mem_map.mpr ⟨n, mem_range.mpr hnr, rfl⟩, ?_⟩
      rw [reach_succ] at hlt
      rw [processTerminal, hstart n le_rfl, mem_take_iff_getElem]
      refine ⟨i - q.reach n, ?_, ?_⟩
      · rw [length_drop]
        dsimp only
        exact lt_min (by omega) (by omega)
      · rw [getElem_drop]
        simp only [Nat.add_sub_cancel' hle]
    have hmem := h.mem (q.docs index)[i] (by
      rw [heq]
      refine mem_filter.mpr ⟨hscanned, ?_⟩
      rw [hcheck, Bool.and_true, Bool.not_eq_true', Bool.eq_false_iff]
      exact hskip)
    exact (after_iff.mp hmem.2.1).1 hbefore

theorem Query.PagesRight.continues (h : q.PagesRight index) : q.Continues index := by
  refine ⟨fun n hn => h.fits hn, fun d hd hcheck => ?_⟩
  obtain ⟨i, hi, rfl⟩ := mem_take_iff_getElem.mp hd
  exact h.none_before (lt_min_iff.mp hi).2 (lt_min_iff.mp hi).1 hcheck

theorem Query.Continues.pagesRight (h : q.Continues index) : q.PagesRight index := by
  obtain ⟨r, hr, heq, hall, -⟩ := q.getValidDoc_eq index
  have hfits : ∀ k, k + 1 < r → (q.windowStart k).toNat + (q.windowSize k).toNat < 2 ^ 32 :=
    fun k hk => h.fits k (by omega) (hall _ hk)
  have hscanned : q.scanned index (q.windowsUpTo r) = (q.docs index).take (q.reach r) :=
    scanned_eq fun k hk => windowStart_eq fun j hj => hfits j (by omega)
  constructor
  · rw [heq]
    change (q.windowsUpTo r).IsChain _
    rw [isChain_iff_getElem]
    intro n hn
    rw [length_windowsUpTo] at hn
    simp only [getElem_windowsUpTo]
    rw [windowStart, UInt32.toNat_add, Nat.mod_eq_of_lt (hfits n hn)]
  · rw [heq]
    change (q.kept index r).Pairwise _
    rw [kept, hscanned]
    exact q.docs_pairwise.sublist (filter_sublist.trans (take_sublist _ _))
  · intro d hd
    rw [heq] at hd
    obtain ⟨hd, hkeep⟩ := mem_filter.mp hd
    rw [hscanned] at hd
    rw [Bool.and_eq_true, Bool.not_eq_true', Bool.eq_false_iff] at hkeep
    have hreach := take_subset_take_left (q.docs index) (reach_mono hr) hd
    exact ⟨mem_of_mem_take hd, after_iff.mpr ⟨h.none_before d hreach hkeep.2, hkeep.1⟩,
      hkeep.2⟩
  · rw [heq]
    intro hpage
    refine hpage.trans (List.Sublist.length_le (monotone_filter_right _ fun d hd => ?_))
    rw [decide_eq_true_eq] at hd
    rw [Bool.and_eq_true, Bool.not_eq_true', Bool.eq_false_iff]
    exact ⟨(after_iff.mp hd.1).2, hd.2⟩

variable (index q) in
/-- A terminal query pages right exactly if no window overflows before the page is full and no
passing document within its reach is returned again. -/
theorem Query.pagesRight_iff : q.PagesRight index ↔ q.Continues index :=
  ⟨PagesRight.continues, Continues.pagesRight⟩

/-- The page behind the document `b` of the score 7, in a range without an upper bound. -/
def secondPage : Query where
  and_keys := [[⟨SEGMENT_RANGE, .ge, 0, 0⟩]]
  page_size := 1
  ascending := true
  last_id := [98]
  last_score := intText 7
  last_value := 7
  last_number := atof_intText 7
  checkDocByExtraFilterKey _ := true

/-- The document `a` of the score 5 is returned on it again. -/
theorem not_pagesRight_secondPage :
    ¬secondPage.PagesRight {toLex (⟨5, by decide⟩, [97])} := by
  intro h
  have hdocs : secondPage.docs {toLex (⟨5, by decide⟩, [97])} = [toLex (⟨5, by decide⟩, [97])] := by
    have hfilter : (({toLex (⟨5, by decide⟩, [97])} : Finset Doc).filter fun d =>
        inRange 0 0 .ge (d.score : ℚ)) = {toLex (⟨5, by decide⟩, [97])} := by decide
    have hrange : ∀ index, secondPage.docs index =
        rangeDocs index ⟨SEGMENT_RANGE, .ge, 0, 0⟩ true := by
      intro index
      simp only [Query.docs, secondPage, ne_eq, not_true_eq_false, if_false]
    rw [hrange, rangeDocs, hfilter, Finset.sort_singleton]
    rfl
  refine h.continues.none_before (toLex (⟨5, by decide⟩, [97])) ?_ rfl ⟨by decide, by decide⟩
  have hreach : 0 < secondPage.reach 11 := by decide
  obtain ⟨n, hn⟩ := Nat.exists_eq_succ_of_ne_zero hreach.ne'
  rw [hdocs, hn]
  exact mem_cons_self

end ISearch.TerminalQuery
