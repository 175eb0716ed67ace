import ISearch.BoolQuery.Defs
import ISearch.Lib.Bytes

/-!
# What a bool query finds

The entries a bool query asks for, and exactly when `GetValidDoc` leaves them in `ResultContext`.

The running result starts empty, and `SetAndIndexInfos` and `SetInvertIndexInfos` take an empty
running result for one that nothing was combined with yet. A clause that follows clauses which
match nothing therefore replaces the result by its own entries. The return values of the lookups
are not looked at.
-/

namespace ISearch.BoolQuery

open List

theorem setIndexInfos_nil (logicType : KeyType) (vet : List IndexInfo) :
    setIndexInfos logicType [] vet = vet := by
  cases logicType <;> rfl

/-- The set operation of a kind of clause. -/
def KeyType.op (logicType : KeyType) (s t : Set (List Nat ×ₗ Nat)) : Set (List Nat ×ₗ Nat) :=
  match logicType with
  | .orKey => s ∪ t
  | .andKey => s ∩ t
  | .invertKey => s \ t

theorem KeyType.op_empty {logicType : KeyType} (h : logicType ≠ .orKey)
    (t : Set (List Nat ×ₗ Nat)) : logicType.op ∅ t = ∅ := by
  cases logicType with
  | orKey => exact absurd rfl h
  | andKey => exact Set.empty_inter t
  | invertKey => exact Set.empty_sdiff t

theorem keySet_setIndexInfos {logicType : KeyType} {vet vet' : List IndexInfo} (hne : vet ≠ [])
    (h : (vet.map IndexInfo.key).Nodup) (h' : (vet'.map IndexInfo.key).Nodup) :
    keySet IndexInfo.key (setIndexInfos logicType vet vet') =
      logicType.op (keySet IndexInfo.key vet) (keySet IndexInfo.key vet') := by
  have hs := sortedBy_sortBy h
  have hs' := sortedBy_sortBy h'
  cases logicType with
  | orKey =>
    simp only [setIndexInfos, setOrIndexInfos, if_neg hne, keySet_setUnion, keySet_sortBy,
      KeyType.op]
  | andKey =>
    simp only [setIndexInfos, setAndIndexInfos, if_neg hne, keySet_setIntersection hs hs',
      keySet_sortBy, KeyType.op]
  | invertKey =>
    simp only [setIndexInfos, setInvertIndexInfos, if_neg hne, keySet_setDifference hs hs',
      keySet_sortBy, KeyType.op]

theorem nodup_setIndexInfos (logicType : KeyType) {vet vet' : List IndexInfo}
    (h : (vet.map IndexInfo.key).Nodup) (h' : (vet'.map IndexInfo.key).Nodup) :
    ((setIndexInfos logicType vet vet').map IndexInfo.key).Nodup := by
  by_cases hnil : vet = []
  · rw [hnil, setIndexInfos_nil]
    exact h'
  have hs := sortedBy_sortBy h
  cases logicType with
  | orKey =>
    simp only [setIndexInfos, setOrIndexInfos, if_neg hnil]
    exact (sortedBy_setUnion hs (sortedBy_sortBy h')).nodup_keys
  | andKey =>
    simp only [setIndexInfos, setAndIndexInfos, if_neg hnil]
    exact hs.nodup_keys.sublist ((sublist_setIntersection _ _).map _)
  | invertKey =>
    simp only [setIndexInfos, setInvertIndexInfos, if_neg hnil]
    exact hs.nodup_keys.sublist ((sublist_setDifference _ _).map _)

variable {F : Type}

namespace BoolQueryProcess

variable (q : BoolQueryProcess F)

/-- The entries the lookup of a clause yields. -/
def entries (c : KeyType × List F) : Set (List Nat ×ₗ Nat) :=
  match q.search c.1 c.2 with
  | .error _ => ∅
  | .ok vet => keySet IndexInfo.key vet.vet

/-- The lookup of a clause fails. -/
def Fails (c : KeyType × List F) : Prop := ∃ iret, q.search c.1 c.2 = .error iret

/-- The entries that some OR clause, when there is one, and every AND clause and no NOT clause
of `cs` yields. -/
def expected (cs : List (KeyType × List F)) : Set (List Nat ×ₗ Nat) :=
  {k | ((∃ c ∈ cs, c.1 = .orKey) → ∃ c ∈ cs, c.1 = .orKey ∧ k ∈ q.entries c) ∧
    (∀ c ∈ cs, c.1 = .andKey → k ∈ q.entries c) ∧ ∀ c ∈ cs, c.1 = .invertKey → k ∉ q.entries c}

/-- A query as `ParseContent` leaves it: every clause has keys, of a query type that has a query
process, the query is not for the paged scan, and some clause is an OR or an AND clause. -/
structure Searches : Prop where
  notPaged : (q.queryBitset .preTerm && q.queryBitset .term) = false
  keys : ∀ c ∈ q.clauses, ∃ f keys, c.2 = f :: keys ∧ q.queryBitset (q.queryType f) = true
  positive : q.getFieldList .orKey ≠ [] ∨ q.getFieldList .andKey ≠ []

/-- `PreTerminal` does nothing for a clause. -/
def lookedUp (c : KeyType × List F) : Bool := c.2.head?.all fun f => q.queryType f ≠ .preTerm

def kept (cs : List (KeyType × List F)) : List (KeyType × List F) := cs.filter q.lookedUp

/-- The entries of the clauses that are looked up, combined one after the other. -/
def found (cs : List (KeyType × List F)) : Set (List Nat ×ₗ Nat) :=
  match q.kept cs with
  | [] => ∅
  | c :: cs => cs.foldl (fun s c => c.1.op s (q.entries c)) (q.entries c)

/-- The query does what it is asked for: a failing lookup makes it fail, without one it leaves
exactly the expected entries, and once the OR clauses are combined an empty result stays empty. -/
structure Correct : Prop where
  fails : (∃ c ∈ q.clauses, q.Fails c) → q.getValidDoc.1 ≠ 0
  exact : (∀ c ∈ q.clauses, ¬ q.Fails c) →
    q.getValidDoc.1 = 0 ∧ keySet IndexInfo.key q.getValidDoc.2 = q.expected q.clauses
  staysEmpty : ∀ pre mid post, q.clauses = pre ++ mid ++ post → q.kept pre ≠ [] →
    (∀ c ∈ mid ++ post, c.1 ≠ .orKey) → (q.clauseLoop pre []).2 = [] →
    (q.clauseLoop (pre ++ mid) []).2 = []

/-- No lookup fails, an AND or NOT clause that follows clauses which together match nothing yields
nothing, and the clauses that are not looked up make no difference. -/
structure NothingRevived : Prop where
  succeeds : ∀ c ∈ q.clauses, ¬ q.Fails c
  empty : ∀ pre c post, q.clauses = pre ++ c :: post → q.kept pre ≠ [] → c.1 ≠ .orKey →
    q.lookedUp c → q.found pre = ∅ → q.entries c = ∅
  skipped : (∃ c ∈ q.clauses, ¬ q.lookedUp c) → q.found q.clauses = q.expected q.clauses

variable {q}

/-! ## The expected entries, clause by clause -/

/-- The clauses come in the order of their kinds. -/
theorem clauses_pairwise : q.clauses.Pairwise fun a b =>
    (b.1 = .orKey → a.1 = .orKey) ∧ (a.1 = .invertKey → b.1 = .invertKey) := by
  simp only [clauses, List.pairwise_append, List.pairwise_map, List.mem_append, List.mem_map]
  refine ⟨⟨?_, ?_, ?_⟩, ?_, ?_⟩
  · exact List.pairwise_of_forall fun _ _ => ⟨fun _ => trivial, nofun⟩
  · exact List.pairwise_of_forall fun _ _ => ⟨nofun, nofun⟩
  · rintro _ ⟨_, _, rfl⟩ _ ⟨_, _, rfl⟩
    exact ⟨nofun, nofun⟩
  · exact List.pairwise_of_forall fun _ _ => ⟨nofun, fun _ => trivial⟩
  · rintro _ _ _ ⟨_, _, rfl⟩
    exact ⟨nofun, fun _ => rfl⟩

/-- The clauses before another one. -/
theorem kinds_of_append {pre post : List (KeyType × List F)} {c : KeyType × List F}
    (h : q.clauses = pre ++ c :: post) {a : KeyType × List F} (ha : a ∈ pre) :
    (c.1 = .orKey → a.1 = .orKey) ∧ (a.1 = .invertKey → c.1 = .invertKey) := by
  have hpair := q.clauses_pairwise
  rw [h, List.pairwise_append] at hpair
  exact hpair.2.2 a ha c mem_cons_self

theorem first_not_invert (hq : q.Searches) {c : KeyType × List F} {post : List (KeyType × List F)}
    (h : q.clauses = c :: post) : c.1 ≠ .invertKey := by
  rw [clauses] at h
  cases hor : q.getFieldList .orKey with
  | cons f fs =>
    simp only [hor, map_cons, cons_append, cons.injEq] at h
    simp [← h.1]
  | nil =>
    obtain ⟨f, fs, hand⟩ := exists_cons_of_ne_nil (hq.positive.resolve_left (absurd hor))
    simp only [hor, hand, map_nil, nil_append, map_cons, cons_append, cons.injEq] at h
    simp [← h.1]

theorem expected_singleton {c : KeyType × List F} (hc : c.1 ≠ .invertKey) :
    q.expected [c] = q.entries c := by
  ext k
  cases hkind : c.1 with
  | orKey => simp [expected, hkind]
  | andKey => simp [expected, hkind]
  | invertKey => exact absurd hkind hc

/-- OR clauses alone ask for the union of their entries. -/
theorem mem_expected_of_or {cs : List (KeyType × List F)} (hne : cs ≠ [])
    (hor : ∀ c ∈ cs, c.1 = .orKey) (k : List Nat ×ₗ Nat) :
    k ∈ q.expected cs ↔ ∃ c ∈ cs, k ∈ q.entries c := by
  have hex : ∃ c ∈ cs, c.1 = .orKey := by
    obtain ⟨c, hc⟩ := exists_mem_of_ne_nil cs hne
    exact ⟨c, hc, hor c hc⟩
  constructor
  · rintro ⟨h, -, -⟩
    obtain ⟨c, hc, -, hk⟩ := h hex
    exact ⟨c, hc, hk⟩
  · rintro ⟨c, hc, hk⟩
    refine ⟨fun _ => ⟨c, hc, hor c hc, hk⟩, ?_, ?_⟩
    · intro a ha hkind
      simp [hor a ha] at hkind
    · intro a ha hkind
      simp [hor a ha] at hkind

/-- A further clause applies its set operation to what the clauses before it leave. -/
theorem expected_concat {pre post : List (KeyType × List F)} {c : KeyType × List F}
    (h : q.clauses = pre ++ c :: post) (hne : pre ≠ []) :
    q.expected (pre ++ [c]) = c.1.op (q.expected pre) (q.entries c) := by
  ext k
  cases hkind : c.1 with
  | orKey =>
    have hor : ∀ a ∈ pre, a.1 = .orKey := fun _ ha => (kinds_of_append h ha).1 hkind
    have hor' : ∀ a ∈ pre ++ [c], a.1 = .orKey := by
      simpa [or_imp, forall_and, hkind] using hor
    rw [KeyType.op, Set.mem_union, mem_expected_of_or hne hor,
      mem_expected_of_or (append_ne_nil_of_left_ne_nil hne _) hor']
    simp [or_and_right, exists_or]
  | andKey =>
    simp [expected, KeyType.op, or_and_right, exists_or, or_imp, forall_and, hkind]
    tauto
  | invertKey =>
    simp [expected, KeyType.op, or_and_right, exists_or, or_imp, forall_and, hkind]
    tauto

theorem found_skipped {pre : List (KeyType × List F)} {c : KeyType × List F}
    (hc : ¬ q.lookedUp c) : q.found (pre ++ [c]) = q.found pre := by
  simp [found, kept, hc]

theorem found_concat {pre : List (KeyType × List F)} {c : KeyType × List F} (hc : q.lookedUp c) :
    q.found (pre ++ [c]) =
      if q.kept pre = [] then q.entries c else c.1.op (q.found pre) (q.entries c) := by
  have hkept : q.kept (pre ++ [c]) = q.kept pre ++ [c] := by simp [kept, hc]
  rw [found, hkept, found]
  cases q.kept pre with
  | nil => rfl
  | cons a as =>
    rw [if_neg (cons_ne_nil a as)]
    exact foldl_concat _ _ _ _

/-- Where all clauses are looked up, they find what is expected. -/
theorem found_eq_expected (hq : q.Searches) (hall : ∀ c ∈ q.clauses, q.lookedUp c)
    {pre post : List (KeyType × List F)} (h : q.clauses = pre ++ post) (hne : pre ≠ []) :
    q.found pre = q.expected pre := by
  induction pre using List.reverseRecOn generalizing post with
  | nil => exact absurd rfl hne
  | append_singleton pre c ih =>
    rw [append_assoc, singleton_append] at h
    have hkept : q.kept pre = pre := filter_eq_self.mpr fun a ha => hall a (by simp [h, ha])
    rw [found_concat (hall c (by simp [h])), hkept]
    split_ifs with hnil
    · subst hnil
      exact (expected_singleton (first_not_invert hq h)).symm
    · rw [ih h hnil, expected_concat h hnil]

/-! ## The loop -/

/-- What a clause does to the running result. -/
def combine (q : BoolQueryProcess F) (vet : List IndexInfo) (c : KeyType × List F) :
    List IndexInfo :=
  if q.lookedUp c then
    match q.search c.1 c.2 with
    | .error _ => vet
    | .ok e => setIndexInfos c.1 vet e.vet
  else vet

theorem clauseLoop_eq (hq : q.Searches) (cs : List (KeyType × List F))
    (hcs : ∀ c ∈ cs, c ∈ q.clauses) (vet : List IndexInfo) :
    q.clauseLoop cs vet = (0, cs.foldl q.combine vet) := by
  induction cs generalizing vet with
  | nil => rfl
  | cons c cs ih =>
    obtain ⟨logicType, ks⟩ := c
    obtain ⟨f, keys, rfl, hbit⟩ := hq.keys _ (hcs _ mem_cons_self)
    have hstep : (q.processClause (q.queryType f) logicType (f :: keys) vet).2 =
        q.combine vet (logicType, f :: keys) := by
      have hlooked : q.lookedUp (logicType, f :: keys) = decide (q.queryType f ≠ .preTerm) := rfl
      rw [processClause, combine, hlooked]
      by_cases htype : q.queryType f = .preTerm
      · simp [htype]
      · simp only [htype, ne_eq, not_false_eq_true, decide_true, if_true, if_false]
        cases q.search logicType (f :: keys) <;> rfl
    rw [clauseLoop, if_neg (by simp [hbit]), ih (fun c hc => hcs c (mem_cons_of_mem _ hc)),
      foldl_cons, hstep]

theorem getValidDoc_eq (hq : q.Searches) :
    q.getValidDoc = (0, q.clauses.foldl q.combine []) := by
  rw [getValidDoc, hq.notPaged]
  exact clauseLoop_eq hq _ (fun _ h => h) []

theorem nodup_combine (vet : List IndexInfo) (c : KeyType × List F)
    (h : (vet.map IndexInfo.key).Nodup) : ((q.combine vet c).map IndexInfo.key).Nodup := by
  unfold combine
  split_ifs
  · cases q.search c.1 c.2 with
    | error iret => exact h
    | ok e => exact nodup_setIndexInfos c.1 h e.nodup
  · exact h

theorem nodup_foldl_combine (cs : List (KeyType × List F)) :
    ((cs.foldl q.combine []).map IndexInfo.key).Nodup := by
  induction cs using List.reverseRecOn with
  | nil => exact List.nodup_nil
  | append_singleton cs c ih =>
    rw [foldl_concat]
    exact nodup_combine _ c ih

theorem keySet_combine_nil {c : KeyType × List F} (hc : ¬ q.Fails c) (hlooked : q.lookedUp c) :
    keySet IndexInfo.key (q.combine [] c) = q.entries c := by
  rw [combine, if_pos hlooked, entries]
  cases hs : q.search c.1 c.2 with
  | error iret => exact absurd ⟨iret, hs⟩ hc
  | ok e => simp only [setIndexInfos_nil]

theorem keySet_combine {c : KeyType × List F} (hc : ¬ q.Fails c) (hlooked : q.lookedUp c)
    {vet : List IndexInfo} (hne : vet ≠ []) (h : (vet.map IndexInfo.key).Nodup) :
    keySet IndexInfo.key (q.combine vet c) = c.1.op (keySet IndexInfo.key vet) (q.entries c) := by
  rw [combine, if_pos hlooked, entries]
  cases hs : q.search c.1 c.2 with
  | error iret => exact absurd ⟨iret, hs⟩ hc
  | ok e => exact keySet_setIndexInfos hne h e.nodup

/-- As long as no clause revives an empty result, the running result is what the clauses looked up
so far find. -/
theorem keySet_foldl_combine (hok : ∀ c ∈ q.clauses, ¬ q.Fails c)
    (hstep : ∀ pre c post, q.clauses = pre ++ c :: post → q.kept pre ≠ [] → c.1 ≠ .orKey →
      q.lookedUp c → pre.foldl q.combine [] = [] → q.found pre = ∅ →
      (pre ++ [c]).foldl q.combine [] = [])
    {pre post : List (KeyType × List F)} (h : q.clauses = pre ++ post) :
    keySet IndexInfo.key (pre.foldl q.combine []) = q.found pre := by
  induction pre using List.reverseRecOn generalizing post with
  | nil => exact keySet_nil
  | append_singleton pre c ih =>
    rw [append_assoc, singleton_append] at h
    have hc : ¬ q.Fails c := hok c (by simp [h])
    have hpre := ih h
    rw [foldl_concat]
    by_cases hlooked : q.lookedUp c
    · rw [found_concat hlooked]
      split_ifs with hnil
      · rw [found, hnil, keySet_eq_empty] at hpre
        rw [hpre, keySet_combine_nil hc hlooked]
      · rw [← hpre]
        by_cases hempty : pre.foldl q.combine [] = []
        · rw [hempty, keySet_nil] at hpre ⊢
          by_cases hor : c.1 = .orKey
          · rw [keySet_combine_nil hc hlooked, hor, KeyType.op, Set.empty_union]
          · have hrun := hstep pre c post h hnil hor hlooked hempty hpre.symm
            rw [foldl_concat, hempty] at hrun
            rw [hrun, keySet_nil, KeyType.op_empty hor]
        · exact keySet_combine hc hlooked hempty (nodup_foldl_combine pre)
    · rw [combine, if_neg hlooked, found_skipped hlooked, hpre]

/-! ## When the query is answered -/

theorem NothingRevived.step (h : q.NothingRevived) (pre : List (KeyType × List F))
    (c : KeyType × List F) (post : List (KeyType × List F)) (hcs : q.clauses = pre ++ c :: post)
    (hne : q.kept pre ≠ []) (hor : c.1 ≠ .orKey) (hlooked : q.lookedUp c)
    (hrun : pre.foldl q.combine [] = []) (hfound : q.found pre = ∅) :
    (pre ++ [c]).foldl q.combine [] = [] := by
  have hc : ¬ q.Fails c := h.succeeds c (by simp [hcs])
  have hkeys := keySet_combine_nil hc hlooked
  rw [h.empty pre c post hcs hne hor hlooked hfound, keySet_eq_empty] at hkeys
  rw [foldl_concat, hrun]
  exact hkeys

theorem NothingRevived.foldl_eq_nil (h : q.NothingRevived)
    {pre mid post : List (KeyType × List F)} (hcs : q.clauses = pre ++ mid ++ post)
    (hne : q.kept pre ≠ []) (hor : ∀ c ∈ mid ++ post, c.1 ≠ .orKey)
    (hempty : pre.foldl q.combine [] = []) : (pre ++ mid).foldl q.combine [] = [] := by
  induction mid using List.reverseRecOn generalizing post with
  | nil => rwa [append_nil]
  | append_singleton mid c ih =>
    have hsplit : q.clauses = (pre ++ mid) ++ c :: post := by rw [hcs]; simp
    have hmid : (pre ++ mid).foldl q.combine [] = [] :=
      ih hsplit (fun a ha => hor a (by simpa using ha))
    rw [← append_assoc]
    by_cases hlooked : q.lookedUp c
    · have hne' : q.kept (pre ++ mid) ≠ [] := by
        rw [kept, filter_append]
        exact append_ne_nil_of_left_ne_nil hne _
      have hfound : q.found (pre ++ mid) = ∅ := by
        rw [← keySet_foldl_combine h.succeeds h.step hsplit, hmid, keySet_nil]
      exact h.step _ c post hsplit hne' (hor c (by simp)) hlooked hmid hfound
    · rw [foldl_concat, combine, if_neg hlooked, hmid]

theorem NothingRevived.correct (hq : q.Searches) (h : q.NothingRevived) : q.Correct where
  fails := by
    rintro ⟨c, hc, hfail⟩
    exact absurd hfail (h.succeeds c hc)
  exact hok := by
    have hne : q.clauses ≠ [] := by
      rcases hq.positive with hor | hand
      · simp [clauses, hor]
      · simp [clauses, hand]
    rw [getValidDoc_eq hq]
    refine ⟨rfl, (keySet_foldl_combine hok h.step (append_nil _).symm).trans ?_⟩
    by_cases hall : ∀ c ∈ q.clauses, q.lookedUp c
    · exact found_eq_expected hq hall (append_nil _).symm hne
    · exact h.skipped (by simpa using hall)
  staysEmpty pre mid post hcs hne hor hempty := by
    rw [clauseLoop_eq hq _ (fun c hc => by simp [hcs, hc])] at hempty
    rw [clauseLoop_eq hq _ (fun c hc => by simpa [hcs, or_assoc] using Or.inl hc)]
    exact h.foldl_eq_nil hcs hne hor hempty

theorem Correct.succeeds (hq : q.Searches) (h : q.Correct) (c : KeyType × List F)
    (hc : c ∈ q.clauses) : ¬ q.Fails c := by
  intro hfail
  apply h.fails ⟨c, hc, hfail⟩
  rw [getValidDoc_eq hq]

theorem Correct.step (hq : q.Searches) (h : q.Correct) (pre : List (KeyType × List F))
    (c : KeyType × List F) (post : List (KeyType × List F)) (hcs : q.clauses = pre ++ c :: post)
    (hne : q.kept pre ≠ []) (hor : c.1 ≠ .orKey) (hrun : pre.foldl q.combine [] = []) :
    (pre ++ [c]).foldl q.combine [] = [] := by
  have hsplit : q.clauses = pre ++ [c] ++ post := by rw [hcs]; simp
  have hpair := q.clauses_pairwise
  rw [hcs, pairwise_append, pairwise_cons] at hpair
  have hrest : ∀ a ∈ [c] ++ post, a.1 ≠ .orKey := by
    intro a ha heq
    rcases mem_cons.mp ha with rfl | ha
    · exact hor heq
    · exact hor ((hpair.2.1.1 a ha).1 heq)
  have hloop := h.staysEmpty pre [c] post hsplit hne hrest
  rw [clauseLoop_eq hq pre (fun a ha => by simp [hcs, ha]),
    clauseLoop_eq hq (pre ++ [c]) (fun a ha => by simpa [hsplit, or_assoc] using Or.inl ha)] at hloop
  exact hloop hrun

theorem Correct.nothingRevived (hq : q.Searches) (h : q.Correct) : q.NothingRevived := by
  have hloop : ∀ {pre post}, q.clauses = pre ++ post →
      keySet IndexInfo.key (pre.foldl q.combine []) = q.found pre :=
    keySet_foldl_combine (h.succeeds hq)
      fun pre c post hcs hne hor _ hrun _ => h.step hq pre c post hcs hne hor hrun
  refine ⟨h.succeeds hq, fun pre c post hcs hne hor hlooked hfound => ?_, fun _ => ?_⟩
  · have hkeys := hloop hcs
    rw [hfound, keySet_eq_empty] at hkeys
    have hrun := h.step hq pre c post hcs hne hor hkeys
    have hc : ¬ q.Fails c := h.succeeds hq c (by simp [hcs])
    rw [foldl_concat, hkeys] at hrun
    rw [← keySet_combine_nil hc hlooked, hrun, keySet_nil]
  · rw [← hloop (append_nil _).symm, ← (h.exact (h.succeeds hq)).2, getValidDoc_eq hq]

/-- A query for one `should` and one `must` clause by term, of which only the latter finds a
document. -/
def emptyShould : BoolQueryProcess Unit where
  getFieldList
    | .orKey => [[()]]
    | .andKey => [[()]]
    | .invertKey => []
  queryType _ := .term
  queryBitset type := type = .term
  search
    | .orKey, _ => .ok ⟨[], List.nodup_nil⟩
    | _, _ => .ok ⟨[{ docId := [1] }], List.nodup_singleton _⟩
  preTerminal := 0

theorem emptyShould_searches : emptyShould.Searches where
  notPaged := rfl
  keys c hc := by
    refine ⟨(), [], ?_, rfl⟩
    simp only [clauses, emptyShould, map_cons, map_nil, append_nil, cons_append, nil_append,
      mem_cons, not_mem_nil, or_false] at hc
    rcases hc with rfl | rfl <;> rfl
  positive := .inl (cons_ne_nil _ _)

/-- A query for one `should` and one `must` clause by term, which find the same document. -/
def sameDocument : BoolQueryProcess Unit :=
  { emptyShould with search := fun _ _ => .ok ⟨[{ docId := [1] }], List.nodup_singleton _⟩ }

end BoolQueryProcess

end ISearch.BoolQuery
