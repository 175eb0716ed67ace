import ISearch.IndexSync.SetRange

/-!
# Deletion in the ordered-set index

`DeleteIndex` looks for the first entry that is not before the one to delete, by key and document
id, and goes on for as long as the keys are equal. It erases the entry under its iterator and then
advances the iterator, which is not valid any more: `none`.
-/

namespace ISearch.IndexSync

/-- `std::lower_bound(begin(), end(), key)`. -/
def EntrySet.lowerBound (set : EntrySet) (key : InvertIndexEntry) : Nat :=
  set.entries.findIdx fun e => !e.less key

namespace SequenceSetIndex

/-- `DeleteIndex`: what it returns, and the index. -/
def deleteIndex (index : SequenceSetIndex) (entry : InvertIndexEntry) :
    Option (Bool × SequenceSetIndex) :=
  match index.get? (getIndexAppidField entry) with
  | none => some (true, index)
  | some set =>
    match set.entries[set.lowerBound entry]? with
    | none => some (false, index)
    | some e => if e.eq entry then none else some (false, index)

/-- The calls that write the index. -/
inductive Op where
  | insert (entry : InvertIndexEntry)
  | delete (entry : InvertIndexEntry)

def call (index : SequenceSetIndex) : Op → Option SequenceSetIndex
  | .insert entry => some (index.insertIndex entry)
  | .delete entry => (index.deleteIndex entry).map (·.2)

def run (ops : List Op) : Option SequenceSetIndex :=
  ops.foldl (fun index op => index.bind (·.call op)) (some .empty)

/-- An application, a field, a key and a document id. -/
abbrev Pair := (Bytes × Int) × (ℤ ×ₗ Bytes)

end SequenceSetIndex

/-- The pair of an entry. -/
def InvertIndexEntry.pair (e : InvertIndexEntry) : SequenceSetIndex.Pair :=
  ((e.appid, e.field), e.place)

namespace SequenceSetIndex

/-- What a call is to do to the pairs. -/
def Op.onPairs (pairs : Set Pair) : Op → Set Pair
  | .insert entry => Insert.insert entry.pair pairs
  | .delete entry => pairs \ {entry.pair}

/-- The pairs inserted and not deleted since. -/
def remaining (ops : List Op) : Set Pair := ops.foldl Op.onPairs ∅

/-- The sets hold the pairs. -/
def Holds (index : SequenceSetIndex) (pairs : Set Pair) : Prop :=
  ∀ (key : InvertIndexEntry) (place : ℤ ×ₗ Bytes),
    (∃ e ∈ (index.setOf key).entries, e.place = place) ↔ ((key.appid, key.field), place) ∈ pairs

/-- The pair has the entry's key, and its document id is not before the entry's. -/
def Meets (entry : InvertIndexEntry) (p : Pair) : Prop :=
  p.1 = (entry.appid, entry.field) ∧ (ofLex p.2).1 = entry.key ∧ entry.docId ≤ (ofLex p.2).2

variable {index : SequenceSetIndex} {pairs : Set Pair} {entry : InvertIndexEntry} {ops : List Op}

/-! ## One call -/

/-- The iterator stops at an entry of the key exactly if there is one from the document id on. -/
theorem lowerBound_eq_iff {set : EntrySet} :
    (∃ e, set.entries[set.lowerBound entry]? = some e ∧ e.eq entry = true) ↔
      ∃ e ∈ set.entries, e.key = entry.key ∧ entry.docId ≤ e.docId := by
  rw [EntrySet.lowerBound, ← List.find?_eq_getElem?_findIdx]
  have hle (e : InvertIndexEntry) : e.less entry = false ↔ entry.place ≤ e.place := by
    rw [← Bool.not_eq_true, InvertIndexEntry.less_iff, not_lt]
  have hplace {e : InvertIndexEntry} (hk : e.key = entry.key) :
      entry.place ≤ e.place ↔ entry.docId ≤ e.docId := by
    rw [InvertIndexEntry.place, InvertIndexEntry.place, Prod.Lex.toLex_le_toLex]
    simp [hk]
  constructor
  · rintro ⟨e, hfind, heq⟩
    have hkey := InvertIndexEntry.eq_iff.mp heq
    have hfrom := (hle e).mp (by simpa using List.find?_some hfind)
    exact ⟨e, List.mem_of_find?_eq_some hfind, hkey, (hplace hkey).mp hfrom⟩
  · rintro ⟨x, hx, hkey, hdoc⟩
    have hfrom : (!x.less entry) = true := by
      rw [(hle x).mpr ((hplace hkey).mpr hdoc), Bool.not_false]
    obtain ⟨e, hfind⟩ := Option.isSome_iff_exists.mp
      (List.find?_isSome (p := fun e => !e.less entry) |>.mpr ⟨x, hx, hfrom⟩)
    refine ⟨e, hfind, InvertIndexEntry.eq_iff.mpr ?_⟩
    obtain ⟨hfrom', before, behind, hsplit, hbefore⟩ := List.find?_eq_some_iff_append.mp hfind
    have hge : entry.place ≤ e.place := (hle e).mp (by simpa using hfrom')
    -- `x` is not before the first entry from the document id on
    have hlex : e.place ≤ x.place := by
      rw [hsplit] at hx
      rcases List.mem_append.mp hx with hx | hx
      · have hnot := hbefore x hx
        rw [hfrom] at hnot
        cases hnot
      · rcases List.mem_cons.mp hx with rfl | hx
        · exact le_refl _
        · have hsorted := set.sorted
          rw [hsplit] at hsorted
          exact (List.rel_of_pairwise_cons (List.pairwise_append.mp hsorted).2.1 hx).le
    have hkeys := le_antisymm (Prod.Lex.monotone_fst _ _ hge)
      ((Prod.Lex.monotone_fst _ _ hlex).trans_eq hkey)
    exact hkeys.symm

theorem mem_places_insert {set : EntrySet} {place : ℤ ×ₗ Bytes} :
    (∃ e ∈ (set.insert entry).entries, e.place = place) ↔
      entry.place = place ∨ ∃ e ∈ set.entries, e.place = place := by
  have hperm := set.insert_perm entry
  simp only [hperm.mem_iff]
  split
  · simp [or_comm]
  · rename_i htaken
    obtain ⟨x, hx, hplace⟩ := not_forall₂.mp htaken
    refine ⟨.inr, fun h => h.elim (fun heq => ⟨x, hx, ?_⟩) id⟩
    rw [← heq]
    exact not_not.mp hplace

theorem Holds.insert (h : index.Holds pairs) (entry : InvertIndexEntry) :
    (index.insertIndex entry).Holds (insert entry.pair pairs) := by
  intro key place
  rw [setOf_insertIndex, Set.mem_insert_iff, InvertIndexEntry.pair, ← h key place]
  split
  · rename_i hkey
    rw [mem_places_insert, hkey.1, hkey.2]
    simp [eq_comm]
  · rename_i hkey
    refine ⟨.inr, fun hor => hor.resolve_left fun heq => hkey ?_⟩
    obtain ⟨happ, hfield⟩ := Prod.mk.inj (Prod.mk.inj heq).1
    exact ⟨happ.symm, hfield.symm⟩

/-- A deletion comes back exactly if no entry of its key is at its document id or behind it. -/
theorem Holds.delete_iff (h : index.Holds pairs) :
    (∃ ret, index.deleteIndex entry = some (ret, index)) ↔ ∀ p ∈ pairs, ¬Meets entry p := by
  have hmeets : (∃ e ∈ (index.setOf entry).entries, e.key = entry.key ∧ entry.docId ≤ e.docId) ↔
      ∃ p ∈ pairs, Meets entry p := by
    constructor
    · rintro ⟨e, he, hkey, hdoc⟩
      exact ⟨((entry.appid, entry.field), e.place), (h entry e.place).mp ⟨e, he, rfl⟩, rfl, hkey,
        hdoc⟩
    · rintro ⟨⟨name, place⟩, hp, hname, hkey, hdoc⟩
      obtain rfl : name = (entry.appid, entry.field) := hname
      obtain ⟨e, he, rfl⟩ := (h entry place).mpr hp
      exact ⟨e, he, hkey, hdoc⟩
  have hnone : (∀ p ∈ pairs, ¬Meets entry p) ↔ ¬∃ e, (index.setOf entry).entries[
      (index.setOf entry).lowerBound entry]? = some e ∧ e.eq entry = true := by
    rw [lowerBound_eq_iff, hmeets]
    simp
  rw [hnone, deleteIndex, setOf]
  cases index.get? (getIndexAppidField entry) with
  | none => simp [EntrySet.empty]
  | some set =>
    simp only [Option.getD_some]
    cases set.entries[set.lowerBound entry]? with
    | none => simp
    | some e =>
      cases heq : e.eq entry with
      | true => simp [InvertIndexEntry.eq_iff.mp heq]
      | false => simp [InvertIndexEntry.eq_eq_false_iff.mp heq]

theorem deleteIndex_eq_of_some {ret : Bool} {index' : SequenceSetIndex}
    (h : index.deleteIndex entry = some (ret, index')) : index' = index := by
  rw [deleteIndex] at h
  split at h
  · cases h
    rfl
  · split at h
    · cases h
      rfl
    · split at h <;> cases h
      rfl

/-! ## Runs -/

/-- No deletion meets a pair that was inserted before. -/
def NoneMet (ops : List Op) : Prop :=
  ∀ before entry behind, ops = before ++ .delete entry :: behind →
    ∀ e, Op.insert e ∈ before → ¬Meets entry e.pair

/-- The pairs inserted. -/
def inserted (ops : List Op) : Set Pair := {p | ∃ e, Op.insert e ∈ ops ∧ e.pair = p}

theorem noneMet_concat {op : Op} : NoneMet (ops ++ [op]) ↔
    NoneMet ops ∧ ∀ entry, op = .delete entry → ∀ p ∈ inserted ops, ¬Meets entry p := by
  constructor
  · intro h
    refine ⟨fun before entry behind hsplit => h before entry (behind ++ [op]) (by simp [hsplit]), ?_⟩
    rintro entry rfl p ⟨e, he, rfl⟩
    exact h ops entry [] rfl e he
  · rintro ⟨hops, hlast⟩ before entry behind hsplit
    rcases List.eq_nil_or_concat behind with rfl | ⟨behind, op', rfl⟩
    · obtain ⟨rfl, hop⟩ := List.append_inj' hsplit rfl
      exact fun e he => hlast entry (List.cons.inj hop).1 _ ⟨e, he, rfl⟩
    · refine hops before entry behind ?_
      have hsplit' : ops ++ [op] = (before ++ .delete entry :: behind) ++ [op'] := by
        simpa using hsplit
      exact (List.append_inj' hsplit' rfl).1

theorem run_concat (ops : List Op) (op : Op) : run (ops ++ [op]) = (run ops).bind (·.call op) :=
  List.foldl_concat _ _ _ _

/-- Where no deletion meets a pair, the index holds all pairs inserted, and these remain. -/
theorem run_spec (h : NoneMet ops) :
    ∃ index, run ops = some index ∧ index.Holds (inserted ops) ∧ remaining ops = inserted ops := by
  induction ops using List.reverseRecOn with
  | nil =>
    refine ⟨.empty, rfl, fun key place => ?_, ?_⟩
    · have hnone : (SortedMap.empty : SequenceSetIndex).get? (getIndexAppidField key) = none := rfl
      simp [setOf, inserted, hnone, EntrySet.empty]
    · simp [remaining, inserted]
  | append_singleton ops op ih =>
    obtain ⟨hops, hlast⟩ := noneMet_concat.mp h
    obtain ⟨index, hrun, hholds, hremaining⟩ := ih hops
    rw [run_concat, hrun, Option.bind_some]
    have hfold : remaining (ops ++ [op]) = op.onPairs (inserted ops) := by
      rw [remaining, List.foldl_concat, ← remaining, hremaining]
    cases op with
    | insert entry =>
      have hinserted : inserted (ops ++ [.insert entry]) = insert entry.pair (inserted ops) := by
        ext p
        simp [inserted, or_and_right, exists_or, eq_comm, or_comm]
      exact ⟨_, rfl, hinserted ▸ hholds.insert entry, hfold.trans hinserted.symm⟩
    | delete entry =>
      have hinserted : inserted (ops ++ [.delete entry]) = inserted ops := by
        ext p
        simp [inserted]
      have hnone := hlast entry rfl
      obtain ⟨ret, hdelete⟩ := hholds.delete_iff.mpr hnone
      refine ⟨index, by simp [call, hdelete], hinserted ▸ hholds, ?_⟩
      rw [hfold, hinserted]
      refine Set.sdiff_singleton_eq_self fun hmem => hnone _ hmem ⟨rfl, rfl, le_refl _⟩

theorem noneMet_of_run (h : (run ops).isSome) : NoneMet ops := by
  induction ops using List.reverseRecOn with
  | nil =>
    intro before entry behind hsplit
    simp at hsplit
  | append_singleton ops op ih =>
    rw [run_concat] at h
    obtain ⟨index', hstep⟩ := Option.isSome_iff_exists.mp h
    obtain ⟨index, hrun, hcall⟩ := Option.bind_eq_some_iff.mp hstep
    have hops := ih (by rw [hrun]; rfl)
    obtain ⟨index₁, hrun₁, hholds, -⟩ := run_spec hops
    cases hrun.symm.trans hrun₁
    refine noneMet_concat.mpr ⟨hops, ?_⟩
    rintro entry rfl
    obtain ⟨⟨ret, index₂⟩, hdelete, -⟩ := Option.map_eq_some_iff.mp hcall
    obtain rfl := deleteIndex_eq_of_some hdelete
    exact hholds.delete_iff.mp ⟨ret, hdelete⟩

/-- A run of insertions and deletions keeps to valid iterators and holds the pairs inserted and not
deleted since exactly if no deletion meets an entry of its key at its document id or behind it. -/
theorem run_holds_iff (ops : List Op) :
    (∃ index, run ops = some index ∧ index.Holds (remaining ops)) ↔ NoneMet ops := by
  constructor
  · rintro ⟨index, hrun, -⟩
    exact noneMet_of_run (by rw [hrun]; rfl)
  · intro h
    obtain ⟨index, hrun, hholds, hremaining⟩ := run_spec h
    exact ⟨index, hrun, hremaining ▸ hholds⟩

/-- An entry with the key 5. -/
def fiveEntry (docId : Bytes) : InvertIndexEntry :=
  { InvertIndexEntry.ofKey [49] 3 1 5 with docId }

/-- The entry of document "a" is deleted while document "b" has the same key. -/
theorem not_run_holds_five :
    ¬∃ index, run [.insert (fiveEntry [98]), .delete (fiveEntry [97])] = some index ∧
      index.Holds (remaining [.insert (fiveEntry [98]), .delete (fiveEntry [97])]) := by
  rintro ⟨index, hrun, -⟩
  have hsome : (run [.insert (fiveEntry [98]), .delete (fiveEntry [97])]).isSome := by
    rw [hrun]
    rfl
  refine noneMet_of_run hsome [.insert (fiveEntry [98])] (fiveEntry [97]) [] rfl
    (fiveEntry [98]) List.mem_cons_self ⟨rfl, rfl, ?_⟩
  decide

end SequenceSetIndex

end ISearch.IndexSync
