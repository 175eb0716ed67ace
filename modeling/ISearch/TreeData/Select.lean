import ISearch.TreeData.Invariant

/-!
# The records a request visits (`TreeData::match_index_condition`)

Whichever traversal the conditions ask for, the records visited are records of the node in index
order, or in the reverse order. `taken` says where a traversal with a bound on the rows stops.
-/

namespace ISearch.TreeData

open TTree BufferProcess State List

variable {K R : Type} [LinearOrder K] {T : Table K R} {st : State K R} {task : Task T}

/-- A list in index order, in the order declared for the table. -/
def inOrder {A : Type} (isAsc : Bool) (l : List A) : List A := if isAsc then l else l.reverse

/-- The records `visit` takes of a list, with `rowsGot` rows got before. -/
def taken (st : State K R) (nodesNum : Nat) : Nat → List Handle → List Handle
  | _, [] => []
  | rowsGot, h :: hs =>
    if nodesNum > 0 ∧ rowsGot ≥ nodesNum then []
    else h :: taken st nodesNum (rowsGot + (st.mem h).rows.length) hs

section Taken

omit [LinearOrder K]

theorem foldl_visit_full {nodesNum : Nat} {cookie : ResCookie}
    (hfull : nodesNum > 0 ∧ cookie.rowsGot ≥ nodesNum) (l : List Handle) :
    l.foldl (visit st nodesNum) cookie = cookie := by
  induction l with
  | nil => rfl
  | cons h hs ih => rw [foldl_cons, visit, if_pos hfull, ih]

theorem foldl_visit (st : State K R) (nodesNum : Nat) (l : List Handle) (cookie : ResCookie) :
    (l.foldl (visit st nodesNum) cookie).handles =
      cookie.handles ++ taken st nodesNum cookie.rowsGot l := by
  induction l generalizing cookie with
  | nil => rw [taken, append_nil, foldl_nil]
  | cons h hs ih =>
    rw [taken]
    by_cases hfull : nodesNum > 0 ∧ cookie.rowsGot ≥ nodesNum
    · rw [foldl_visit_full hfull, if_pos hfull, append_nil]
    · rw [foldl_cons, ih, if_neg hfull, visit, if_neg hfull, append_assoc,
        singleton_append]

theorem prefix_taken (st : State K R) (nodesNum rowsGot : Nat) (l : List Handle) :
    taken st nodesNum rowsGot l <+: l := by
  induction l generalizing rowsGot with
  | nil => exact prefix_rfl
  | cons h hs ih =>
    rw [taken]
    split_ifs
    · exact nil_prefix
    · exact (prefix_cons_inj h).mpr (ih _)

theorem taken_zero (st : State K R) (rowsGot : Nat) (l : List Handle) :
    taken st 0 rowsGot l = l := by
  induction l generalizing rowsGot with
  | nil => rfl
  | cons h hs ih => rw [taken, if_neg (by simp), ih]

end Taken

section Select

variable (H : T.Orders) (hinv : st.Inv T)

omit [LinearOrder K] in
theorem getSubRaw_eq (st : State K R) (task : Task T) (isAsc : Bool) :
    getSubRaw st task isAsc = inOrder isAsc (taken st
      (if task.allRows ∧ task.limitCount > 0 then task.limitNext else 0) 0 st.handles) := by
  simp only [inOrder, getSubRaw, TtreeNode.traverseForward_eq, foldl_visit, nil_append, State.handles]

include H hinv

theorem from_eq (k : K) :
    (st.root.traverseForwardFrom (st.pfComp T) k (visit st 0) ⟨[], 0⟩).handles =
      st.handles.filter fun h => decide (k ≤ st.keyOf h) := by
  rw [TtreeNode.traverseForwardFrom_eq (H.pfComp st) hinv.shape hinv.sorted, foldl_visit,
    taken_zero, nil_append, State.handles]

theorem range_eq (k k' : K) :
    (st.root.traverseForwardRange (st.pfComp T) k k' (visit st 0) ⟨[], 0⟩).handles =
      st.handles.filter fun h => decide (k ≤ st.keyOf h ∧ st.keyOf h ≤ k') := by
  rw [TtreeNode.traverseForwardRange_eq (H.pfComp st) hinv.shape hinv.sorted, foldl_visit,
    taken_zero, nil_append, State.handles]

theorem upTo_eq (k : K) (nodesNum : Nat) :
    (st.root.traverseBackwardFrom (st.pfComp T) k (visit st nodesNum) ⟨[], 0⟩).handles =
      taken st nodesNum 0 (st.handles.filter fun h => decide (st.keyOf h ≤ k)).reverse := by
  rw [TtreeNode.traverseBackwardFrom_eq (H.pfComp st) hinv.shape hinv.sorted, foldl_visit,
    nil_append, State.handles]

theorem matchIndexCondition_sublist (task : Task T) (isAsc : Bool) :
    ∃ l, l.Sublist st.handles ∧ matchIndexCondition st task isAsc = inOrder isAsc l := by
  have hsub : ∃ l, l.Sublist st.handles ∧ getSubRaw st task isAsc = inOrder isAsc l := by
    rw [getSubRaw_eq]
    exact ⟨_, (prefix_taken _ _ _ _).sublist, rfl⟩
  rw [matchIndexCondition]
  dsimp only
  split
  · exact hsub
  · split
    · next cond hcond =>
      cases hfind : st.find T cond.value with
      | none => exact ⟨[], nil_sublist _, by cases isAsc <;> rfl⟩
      | some h =>
        obtain ⟨hh, -⟩ := (hinv.find_eq_some H).mp hfind
        exact ⟨[h], singleton_sublist.mpr hh, by cases isAsc <;> rfl⟩
    · split
      · rw [from_eq H hinv]
        exact ⟨_, filter_sublist, rfl⟩
      · next right _ _ =>
        rw [upTo_eq H hinv]
        have hgot := (prefix_taken st st.data.nodeCnts.toNat 0 (st.handles.filter
          fun h => decide (st.keyOf h ≤ right.value)).reverse).sublist.reverse
        rw [reverse_reverse] at hgot
        refine ⟨_, hgot.trans filter_sublist, ?_⟩
        rw [inOrder, reverse_reverse]
      · rw [range_eq H hinv]
        exact ⟨_, filter_sublist, rfl⟩
      · exact hsub

theorem nodup_matchIndexCondition (task : Task T) (isAsc : Bool) :
    (matchIndexCondition st task isAsc).Nodup := by
  obtain ⟨l, hl, heq⟩ := matchIndexCondition_sublist H hinv task isAsc
  have hnodup : l.Nodup := hl.nodup hinv.sorted.nodup
  rw [heq, inOrder]
  split_ifs
  · exact hnodup
  · exact nodup_reverse.mpr hnodup

theorem mem_handles_of_mem_matchIndexCondition {isAsc : Bool} {h : Handle}
    (hh : h ∈ matchIndexCondition st task isAsc) : h ∈ st.handles := by
  obtain ⟨l, hl, heq⟩ := matchIndexCondition_sublist H hinv task isAsc
  refine hl.subset ?_
  rw [heq, inOrder] at hh
  split_ifs at hh
  · exact hh
  · exact mem_reverse.mp hh

end Select

/-! ## Which records are visited -/

/-- The rows with an index value below `k`. -/
def rowsBelow (T : Table K R) (st : State K R) (k : K) : Nat :=
  st.rows.countP fun r => decide (T.index r.value < k)

/-- The rows with an index value above `k`, and not above `k'`. -/
def rowsAbove (T : Table K R) (st : State K R) (k k' : K) : Nat :=
  st.rows.countP fun r => decide (k < T.index r.value ∧ T.index r.value ≤ k')

/-- A request without conditions and with a limit stops at the rows below the limit. -/
def Task.InFront (task : Task T) (st : State K R) (k : K) : Prop :=
  task.allRows = true → 0 < task.limitCount → 0 < task.limitNext →
    rowsBelow T st k < task.limitNext

/-- The index values whose records a request visits. -/
def Task.Reaches (task : Task T) (st : State K R) (k : K) : Prop :=
  let conds := task.indexConditions
  if conds.length = 0 ∨ conds.length = 1 ∧ conds.all (·.op = .ne) then task.InFront st k
  else match conds.find? (fun cond => cond.op = .eq) with
    | some cond => k = cond.value
    | none =>
      match conds.find? (fun cond => cond.op = .gt ∨ cond.op = .ge),
          conds.find? (fun cond => cond.op = .lt ∨ cond.op = .le) with
      | some left, none => left.value ≤ k
      | none, some right => k ≤ right.value ∧ (0 < st.data.nodeCnts.toNat →
          rowsAbove T st k right.value < st.data.nodeCnts.toNat)
      | some left, some right => left.value ≤ k ∧ k ≤ right.value
      | none, none => task.InFront st k

omit [LinearOrder K] in
/-- A record is taken unless the records before it have enough rows. -/
theorem mem_taken_iff (st : State K R) (nodesNum : Nat) (before : Handle → Handle → Prop)
    [DecidableRel before] {l : List Handle} {h : Handle} (hirrefl : ∀ g, ¬before g g)
    (hasymm : ∀ {g g'}, before g g' → ¬before g' g) (hl : l.Pairwise before) (hh : h ∈ l)
    (rowsGot : Nat) :
    h ∈ taken st nodesNum rowsGot l ↔ (0 < nodesNum → rowsGot +
      ((l.filter fun g => decide (before g h)).map fun g => (st.mem g).rows.length).sum <
        nodesNum) := by
  induction l generalizing rowsGot with
  | nil => cases hh
  | cons g gs ih =>
    obtain ⟨hbefore, hgs⟩ := pairwise_cons.mp hl
    rw [taken]
    by_cases hfull : nodesNum > 0 ∧ rowsGot ≥ nodesNum
    · rw [if_pos hfull]
      exact iff_of_false not_mem_nil fun hlt => by
        have := hlt hfull.1
        omega
    · rw [if_neg hfull, mem_cons]
      by_cases hg : h = g
      · subst hg
        have hnone : (h :: gs).filter (fun g => decide (before g h)) = [] := by
          rw [filter_eq_nil_iff, forall_mem_cons]
          exact ⟨by simpa using hirrefl h, fun g hg => by simpa using hasymm (hbefore g hg)⟩
        rw [hnone, map_nil, sum_nil]
        exact iff_of_true (.inl rfl) fun hpos => by omega
      · have hmem : h ∈ gs := (mem_cons.mp hh).resolve_left hg
        rw [ih hgs hmem, filter_cons_of_pos (by simpa using hbefore h hmem), map_cons,
          sum_cons, ← Nat.add_assoc]
        exact ⟨fun h => h.resolve_left hg, .inr⟩

omit [LinearOrder K] in
/-- The rows of some index values are those of the records of these index values. -/
theorem filter_flatMap_index (p : K → Bool) {l : List Handle}
    (hindex : ∀ g ∈ l, ∀ r ∈ (st.mem g).rows, T.index r.value = st.keyOf g) :
    (l.flatMap fun g => (st.mem g).rows).filter (fun r => p (T.index r.value)) =
      (l.filter fun g => p (st.keyOf g)).flatMap fun g => (st.mem g).rows := by
  induction l with
  | nil => rfl
  | cons g gs ih =>
    have hcongr : (st.mem g).rows.filter (fun r => p (T.index r.value)) =
        (st.mem g).rows.filter fun _ => p (st.keyOf g) :=
      filter_congr fun r hr => by rw [hindex g mem_cons_self r hr]
    rw [flatMap_cons, filter_append, hcongr,
      ih fun g hg => hindex g (mem_cons_of_mem _ hg)]
    cases hp : p (st.keyOf g) with
    | true => rw [filter_cons_of_pos (by simpa using hp), flatMap_cons, filter_true]
    | false =>
      rw [filter_cons_of_neg (by simp [hp]), filter_false, nil_append]

omit [LinearOrder K] in
theorem countP_flatMap_index (p : K → Bool) {l : List Handle}
    (hindex : ∀ g ∈ l, ∀ r ∈ (st.mem g).rows, T.index r.value = st.keyOf g) :
    (l.flatMap fun g => (st.mem g).rows).countP (fun r => p (T.index r.value)) =
      ((l.filter fun g => p (st.keyOf g)).map fun g => (st.mem g).rows.length).sum := by
  rw [countP_eq_length_filter, filter_flatMap_index p hindex, length_flatMap]

section Reaches

variable (H : T.Orders) (hinv : st.Inv T) {h : Handle} (hh : h ∈ st.handles)

include hinv hh

theorem mem_getSubRaw_iff (isAsc : Bool) :
    h ∈ getSubRaw st task isAsc ↔ task.InFront st (st.keyOf h) := by
  have hmem : ∀ l : List Handle, h ∈ inOrder isAsc l ↔ h ∈ l := fun l => by
    cases isAsc <;> simp [inOrder]
  have htaken := mem_taken_iff st
    (if task.allRows ∧ task.limitCount > 0 then task.limitNext else 0)
    (fun g g' => st.keyOf g < st.keyOf g')
    (fun g => lt_irrefl _) (fun h => lt_asymm h) hinv.sorted hh 0
  have hcount : rowsBelow T st (st.keyOf h) = ((st.handles.filter fun g =>
      decide (st.keyOf g < st.keyOf h)).map fun g => (st.mem g).rows.length).sum :=
    countP_flatMap_index (fun k => decide (k < st.keyOf h)) hinv.index
  rw [getSubRaw_eq, hmem, htaken, ← hcount, Nat.zero_add, Task.InFront]
  by_cases hall : task.allRows = true ∧ task.limitCount > 0
  · rw [if_pos hall]
    exact ⟨fun h _ _ => h, fun h => h hall.1 hall.2⟩
  · rw [if_neg hall]
    exact ⟨fun _ h1 h2 => absurd ⟨h1, h2⟩ hall, fun _ h0 => absurd h0 (lt_irrefl _)⟩

theorem mem_upTo_iff (k : K) (nodesNum : Nat) :
    h ∈ taken st nodesNum 0 (st.handles.filter fun g => decide (st.keyOf g ≤ k)).reverse ↔
      st.keyOf h ≤ k ∧ (0 < nodesNum → rowsAbove T st (st.keyOf h) k < nodesNum) := by
  by_cases hk : st.keyOf h ≤ k
  · have hmem : h ∈ (st.handles.filter fun g => decide (st.keyOf g ≤ k)).reverse := by
      rw [mem_reverse, mem_filter]
      exact ⟨hh, decide_eq_true hk⟩
    have hpairwise : (st.handles.filter fun g => decide (st.keyOf g ≤ k)).reverse.Pairwise
        fun g g' => st.keyOf g' < st.keyOf g := by
      rw [pairwise_reverse]
      exact List.Pairwise.filter _ hinv.sorted
    have hcount : rowsAbove T st (st.keyOf h) k = (((st.handles.filter fun g =>
        decide (st.keyOf g ≤ k)).reverse.filter fun g => decide (st.keyOf h < st.keyOf g)).map
          fun g => (st.mem g).rows.length).sum := by
      rw [filter_reverse, map_reverse, sum_reverse, filter_filter]
      refine (countP_flatMap_index (fun k' => decide (st.keyOf h < k' ∧ k' ≤ k))
        hinv.index).trans ?_
      simp only [Bool.decide_and]
    rw [mem_taken_iff st nodesNum (fun g g' => st.keyOf g' < st.keyOf g) (fun g => lt_irrefl _)
      (fun h => lt_asymm h) hpairwise hmem, ← hcount, Nat.zero_add]
    exact ⟨fun h => ⟨hk, h⟩, And.right⟩
  · refine iff_of_false (fun hmem => hk ?_) fun h => hk h.1
    have := (prefix_taken st nodesNum 0 _).subset hmem
    rw [mem_reverse, mem_filter] at this
    exact of_decide_eq_true this.2

include H

theorem mem_matchIndexCondition_iff (isAsc : Bool) :
    h ∈ matchIndexCondition st task isAsc ↔ task.Reaches st (st.keyOf h) := by
  rw [matchIndexCondition, Task.Reaches]
  dsimp only
  split
  · exact mem_getSubRaw_iff hinv hh isAsc
  · cases heq : task.indexConditions.find? fun cond => cond.op = .eq with
    | some cond =>
      rw [Option.mem_toList, hinv.find_eq_some H]
      exact ⟨And.right, fun hk => ⟨hh, hk⟩⟩
    | none =>
      cases hleft : task.indexConditions.find? fun cond => cond.op = .gt ∨ cond.op = .ge with
      | some left =>
        cases hright : task.indexConditions.find? fun cond => cond.op = .lt ∨ cond.op = .le with
        | some right =>
          dsimp only
          rw [range_eq H hinv]
          cases isAsc <;> simp [hh]
        | none =>
          dsimp only
          rw [from_eq H hinv]
          cases isAsc <;> simp [hh]
      | none =>
        cases hright : task.indexConditions.find? fun cond => cond.op = .lt ∨ cond.op = .le with
        | some right =>
          dsimp only
          rw [upTo_eq H hinv, ← mem_upTo_iff hinv hh]
          cases isAsc <;> simp
        | none => exact mem_getSubRaw_iff hinv hh isAsc

end Reaches

end ISearch.TreeData
