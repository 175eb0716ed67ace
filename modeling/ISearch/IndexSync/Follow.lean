import ISearch.IndexSync.SyncUnit

/-!
# When the index follows its master

A row of the master is known to the index by its set, the number of its key and its document. The
number that a key stands for is a parameter: the master only stores the bytes of the key.

A row that is not in the index has to be `Pending`: its key is going to be reported and asked for.
Steps that keep this, and keep the index free of other rows, are the ones that `StepOk` allows.
-/

namespace ISearch.IndexSync

open Function Option

variable {appFieldInfo : UInt32 → List AppFieldInfo} {valueOf : Bytes → Int}

/-- A row as the index knows it: the set, the key and the document. -/
abbrev IndexRow := Bytes × Int × Bytes

/-- The application of the key of a keyword. -/
def appidOf (k : Bytes) : Option Bytes := (splitKey k).map (·.1)

/-- The row belongs to a field with a range index. -/
def InRangeField (appFieldInfo : UInt32 → List AppFieldInfo) (k : Bytes) (row : Row) : Prop :=
  ∃ appid ∈ appidOf k, isFieldSupportRange appFieldInfo (readUInt32 appid) row.field = true

def indexRow (valueOf : Bytes → Int) (k : Bytes) (row : Row) : IndexRow :=
  ((appidOf k).getD [] ++ 95 :: intText row.field, valueOf k, row.docId)

/-- The rows of the fields with a range index on the master. -/
def OnMaster (appFieldInfo : UInt32 → List AppFieldInfo) (valueOf : Bytes → Int) (m : Master)
    (x : IndexRow) : Prop :=
  ∃ k, ∃ row ∈ m.data k, InRangeField appFieldInfo k row ∧ x = indexRow valueOf k row

def InIndex (index : SequenceSetIndex) (x : IndexRow) : Prop :=
  ∃ set ∈ index.get? x.1, ∃ e ∈ set.entries, e.place = toLex (x.2.1, x.2.2)

/-- The first node that the full synchronisation has still to list. -/
def Place.nextStart (start : Nat) : Place → Nat
  | .fullRows _ _ => start + limit
  | _ => start

namespace System

/-- The unit is still to ask for the rows of the key: the key was just reported, it is in the
journal behind the position of the unit, or its node is still to be listed. -/
def Pending (s : System) (k : Bytes) : Prop :=
  s.place = .off ∨ k ∈ s.place.keys ∨ (∃ j ∈ s.unit.journalId, k ∈ s.master.journal.drop j) ∨
    s.unit.searchSyncStep = .fullSync ∧
      ∃ i, s.place.nextStart s.unit.start ≤ i ∧ i ≤ s.master.maxNodeId ∧ s.master.node i = some k

/-- A round is over whose requests all succeeded, and no change is left. -/
def CaughtUp (s : System) : Prop :=
  s.place = .idle ∧ s.roundOk = true ∧ s.unit.searchSyncStep = .incSync ∧
    s.unit.journalId = some s.master.journal.length

/-- The index follows the master: it holds the rows of the master when it has caught up, and a row
that it does not hold is asked for in a later request. -/
structure Follows (appFieldInfo : UInt32 → List AppFieldInfo) (valueOf : Bytes → Int)
    (s : System) : Prop where
  exact : s.CaughtUp → ∀ x, InIndex s.index x ↔ OnMaster appFieldInfo valueOf s.master x
  kept : ∀ k, ∀ row ∈ s.master.data k, InRangeField appFieldInfo k row →
    InIndex s.index (indexRow valueOf k row) ∨ s.Pending k

/-- The key is a text without zero bytes in which its number is spelled out. -/
def Spelled (valueOf : Bytes → Int) (k : Bytes) : Prop :=
  cString k = k ∧ ∃ appid number, splitKey k = some (appid, number) ∧ readKey number =
    some (valueOf k)

/-- The rows of the key are all in the index. -/
def Indexed (appFieldInfo : UInt32 → List AppFieldInfo) (valueOf : Bytes → Int) (s : System)
    (k : Bytes) : Prop :=
  ∀ row ∈ s.master.data k, InRangeField appFieldInfo k row →
    InIndex s.index (indexRow valueOf k row)

/-- The steps that keep the index with its master: the key of a new row spells its number, a row
that is deleted has not come into the index, no request for the rows of a key fails unless they are
all in the index, no key is cut at a zero byte to one that has rows, and the request for the changed
keys is not lost and not sent without a change. -/
def StepOk (appFieldInfo : UInt32 → List AppFieldInfo) (valueOf : Bytes → Int) (s : System) :
    Event → Prop
  | .insertRow k row _ => InRangeField appFieldInfo k row → Spelled valueOf k
  | .deleteRow k row =>
    InRangeField appFieldInfo k row → ¬ InIndex s.index (indexRow valueOf k row)
  | .run outcome =>
    (∀ k ∈ s.place.keys.head?, (cString k = k ∨ s.master.data (cString k) = []) ∧
      (outcome = .ok ∨ s.Indexed appFieldInfo valueOf k)) ∧
    (s.place = .inc → outcome ≠ .lost ∧ ∃ j ∈ s.unit.journalId, j < s.master.journal.length)
  | _ => True

instance (k : Bytes) (row : Row) : Decidable (InRangeField appFieldInfo k row) :=
  decidable_of_iff
    ((appidOf k).any fun appid => isFieldSupportRange appFieldInfo (readUInt32 appid) row.field)
    (by simp [InRangeField, any_eq_true])

instance (index : SequenceSetIndex) (x : IndexRow) : Decidable (InIndex index x) :=
  decidable_of_iff
    ((index.get? x.1).any fun set => set.entries.any fun e => e.place = toLex (x.2.1, x.2.2))
    (by simp [InIndex, any_eq_true])

instance (k : Bytes) : Decidable (Spelled valueOf k) :=
  decidable_of_iff
    (cString k = k ∧ (splitKey k).any fun parts => readKey parts.2 = some (valueOf k))
    (by simp [Spelled, any_eq_true])

instance (s : System) (k : Bytes) : Decidable (s.Indexed appFieldInfo valueOf k) :=
  inferInstanceAs (Decidable (∀ row ∈ s.master.data k, _ → _))

instance (s : System) : (e : Event) → Decidable (s.StepOk appFieldInfo valueOf e)
  | .insertRow _ _ _ => inferInstanceAs (Decidable (_ → _))
  | .deleteRow _ _ => inferInstanceAs (Decidable (_ → _))
  | .startSync => inferInstanceAs (Decidable True)
  | .round => inferInstanceAs (Decidable True)
  | .run _ => inferInstanceAs (Decidable (_ ∧ _))

instance (s : System) : Decidable s.CaughtUp := inferInstanceAs (Decidable (_ ∧ _))

/-- What the steps keep. -/
structure Inv (appFieldInfo : UInt32 → List AppFieldInfo) (valueOf : Bytes → Int) (s : System) :
    Prop where
  spelled : ∀ k, ∀ row ∈ s.master.data k, InRangeField appFieldInfo k row → Spelled valueOf k
  sound : ∀ x, InIndex s.index x → OnMaster appFieldInfo valueOf s.master x
  kept : ∀ k, ∀ row ∈ s.master.data k, InRangeField appFieldInfo k row →
    InIndex s.index (indexRow valueOf k row) ∨ s.Pending k
  journal : s.place ≠ .off → ∃ j ∈ s.unit.journalId, j ≤ s.master.journal.length

end System

/-! ## The index -/

theorem exists_place_insertEntry {e : InvertIndexEntry} {l : List InvertIndexEntry}
    (h : SortedBy InvertIndexEntry.place l) (p : ℤ ×ₗ Bytes) :
    (∃ y ∈ insertEntry e l, y.place = p) ↔ e.place = p ∨ ∃ y ∈ l, y.place = p := by
  rcases insertEntry_cases h with ⟨⟨y, hy, hplace⟩, heq⟩ | hsplice
  · rw [heq]
    constructor
    · exact .inr
    · rintro (rfl | h)
      · exact ⟨y, hy, hplace⟩
      · exact h
  · have hmem := fun y => hsplice.mem_iff (y := y)
    simp only [hmem, exists_eq_or_imp]

theorem inIndex_insertIndex {index : SequenceSetIndex} {e : InvertIndexEntry} {x : IndexRow} :
    InIndex (index.insertIndex e) x ↔
      x = (getIndexAppidField e, e.key, e.docId) ∨ InIndex index x := by
  obtain ⟨appidField, key, docId⟩ := x
  have hplace : e.place = toLex (key, docId) ↔ key = e.key ∧ docId = e.docId := by
    rw [InvertIndexEntry.place, toLex_inj, Prod.mk.injEq, eq_comm, @eq_comm _ e.docId]
  simp only [InIndex, SequenceSetIndex.insertIndex, SortedMap.get?_put, Prod.mk.injEq]
  by_cases h : appidField = getIndexAppidField e
  · subst h
    simp only [if_pos, mem_some_iff, exists_eq_left', true_and, ← hplace]
    rw [EntrySet.insert, exists_place_insertEntry (EntrySet.sorted _)]
    refine or_congr_right ?_
    cases index.get? (getIndexAppidField e) with
    | none => simp [EntrySet.empty]
    | some set => simp
  · simp [h]

theorem inIndex_rows {appid number : Bytes} {key : Int} {rows : List Row}
    (hread : rows ≠ [] → readKey number = some key) {index index' : SequenceSetIndex}
    (h : rows.foldlM (fun index row =>
      (readKey number).map fun key => index.insertIndex (rowEntry appid key row)) index =
        some index') (x : IndexRow) :
    InIndex index' x ↔ InIndex index x ∨
      ∃ row ∈ rows, x = (appid ++ 95 :: intText row.field, key, row.docId) := by
  induction rows generalizing index with
  | nil =>
    cases h
    simp
  | cons row rows ih =>
    have hkey := hread (by simp)
    rw [List.foldlM_cons] at h
    obtain ⟨first, hfirst, h⟩ := bind_eq_some_iff.mp h
    rw [hkey] at hfirst
    cases hfirst
    rw [ih (fun _ => hkey) h, inIndex_insertIndex, List.exists_mem_cons_iff]
    simp only [rowEntry, getIndexAppidField]
    tauto

/-- What `UpdateOneIndex` does for a key that is not cut, or cut to one without rows. -/
theorem inIndex_updateOneIndex {m : Master} {outcome : Outcome} {k : Bytes}
    {index index' : SequenceSetIndex} (hcut : cString k = k ∨ m.data (cString k) = [])
    (hspelled : ∀ row ∈ m.data k, InRangeField appFieldInfo k row → System.Spelled valueOf k)
    (h : updateOneIndex appFieldInfo m outcome k index = some index') (x : IndexRow) :
    InIndex index' x ↔ InIndex index x ∨
      outcome = .ok ∧ ∃ row ∈ m.data k, InRangeField appFieldInfo k row ∧ x =
        indexRow valueOf k row := by
  rw [updateOneIndex] at h
  cases hsplit : splitKey k with
  | none =>
    rw [hsplit] at h
    cases h
    simp [InRangeField, appidOf, hsplit]
  | some parts =>
    obtain ⟨appid, number⟩ := parts
    have hrange (row : Row) : InRangeField appFieldInfo k row ↔
        isFieldSupportRange appFieldInfo (readUInt32 appid) row.field = true := by
      simp [InRangeField, appidOf, hsplit]
    have hindex (row : Row) : indexRow valueOf k row =
        (appid ++ 95 :: intText row.field, valueOf k, row.docId) := by
      simp [indexRow, appidOf, hsplit]
    rw [hsplit] at h
    dsimp only at h
    split at h
    · rename_i hok
      rcases hcut with hcut | hcut
      · rw [hcut] at h
        have hread : (m.data k).filter (fun row =>
            isFieldSupportRange appFieldInfo (readUInt32 appid) row.field) ≠ [] →
            readKey number = some (valueOf k) := by
          intro hne
          obtain ⟨row, hrow⟩ := List.exists_mem_of_ne_nil _ hne
          rw [List.mem_filter, ← hrange] at hrow
          obtain ⟨-, appid', number', hsplit', hread⟩ := hspelled row hrow.1 hrow.2
          cases hsplit.symm.trans hsplit'
          exact hread
        rw [inIndex_rows hread h]
        simp only [hok, true_and, List.mem_filter, hrange, hindex, and_assoc]
      · rw [hcut] at h
        cases h
        constructor
        · exact .inl
        · rintro (h | ⟨-, row, hrow, hrow', -⟩)
          · exact h
          · have hcstr := (hspelled row hrow hrow').1
            rw [hcstr] at hcut
            simp [hcut] at hrow
    · rename_i hok
      cases h
      simp [hok]

/-! ## Changes of the master -/

theorem Master.insertRow_spec {m m' : Master} {k : Bytes} {row : Row} {i : Nat}
    (h : m.insertRow k row i = some m') :
    (m.node i = some k ∨ m.data k = [] ∧ m.node i = none) ∧
      m'.data = update m.data k (m.data k ++ [row]) ∧
      m'.node = update m.node i (some k) ∧
      m'.maxNodeId = max m.maxNodeId i ∧ m'.journal = m.journal ++ [k] := by
  rw [Master.insertRow] at h
  split at h
  · cases h
    exact ⟨‹_›, rfl, rfl, rfl, rfl⟩
  · cases h

theorem Master.deleteRow_spec {m m' : Master} {k : Bytes} {row : Row}
    (h : m.deleteRow k row = some m') :
    row ∈ m.data k ∧ m'.data = update m.data k ((m.data k).erase row) ∧
      (m'.node = fun i => if m.node i = some k ∧ (m.data k).erase row = [] then none
        else m.node i) ∧
      m'.maxNodeId = m.maxNodeId ∧ m'.journal = m.journal ++ [k] := by
  rw [Master.deleteRow] at h
  split at h
  · cases h
    exact ⟨‹_›, rfl, rfl, rfl, rfl⟩
  · cases h

namespace System

variable {s s' : System}

/-- A key whose change is in the journal is pending. -/
theorem pending_of_journal {m : Master} {k : Bytes} (hm : m.journal = s.master.journal ++ [k])
    (hjournal : s.place ≠ .off → ∃ j ∈ s.unit.journalId, j ≤ s.master.journal.length) :
    ({ s with master := m } : System).Pending k := by
  by_cases hoff : s.place = .off
  · exact .inl hoff
  · obtain ⟨j, hj, hle⟩ := hjournal hoff
    refine .inr (.inr (.inl ⟨j, hj, ?_⟩))
    rw [hm, List.drop_append_of_le_length hle]
    exact List.mem_append_right _ (List.mem_singleton_self k)

/-- Other changes leave a key pending. -/
theorem Pending.master {m : Master} {k k' : Bytes} (h : s.Pending k')
    (hm : m.journal = s.master.journal ++ [k])
    (hnode : ∀ i ≤ s.master.maxNodeId, s.master.node i = some k' →
      i ≤ m.maxNodeId ∧ m.node i = some k') :
    ({ s with master := m } : System).Pending k' := by
  rcases h with h | h | ⟨j, hj, h⟩ | ⟨hstage, i, hstart, hle, h⟩
  · exact .inl h
  · exact .inr (.inl h)
  · refine .inr (.inr (.inl ⟨j, hj, ?_⟩))
    rw [hm, List.drop_append]
    exact List.mem_append_left _ h
  · obtain ⟨hle', h'⟩ := hnode i hle h
    exact .inr (.inr (.inr ⟨hstage, i, hstart, hle', h'⟩))

theorem Inv.insertRow (hinv : s.Inv appFieldInfo valueOf) {k : Bytes} {row : Row} {i : Nat}
    {m : Master} (hok : InRangeField appFieldInfo k row → System.Spelled valueOf k)
    (h : s.master.insertRow k row i = some m) :
    ({ s with master := m } : System).Inv appFieldInfo valueOf := by
  obtain ⟨hfree, hdata, hnode, hmax, hjournal⟩ := Master.insertRow_spec h
  constructor
  · intro k' row' hrow' hrange
    dsimp only at hrow'
    rw [hdata] at hrow'
    by_cases hk : k' = k
    · subst hk
      rw [update_self, List.mem_append, List.mem_singleton] at hrow'
      rcases hrow' with hrow' | rfl
      · exact hinv.spelled k' row' hrow' hrange
      · exact hok hrange
    · rw [update_of_ne hk] at hrow'
      exact hinv.spelled k' row' hrow' hrange
  · intro x hx
    obtain ⟨k', row', hrow', hrange, hindex⟩ := hinv.sound x hx
    refine ⟨k', row', ?_, hrange, hindex⟩
    dsimp only
    rw [hdata]
    by_cases hk : k' = k
    · subst hk
      rw [update_self]
      exact List.mem_append_left _ hrow'
    · rwa [update_of_ne hk]
  · intro k' row' hrow' hrange
    dsimp only at hrow'
    rw [hdata] at hrow'
    by_cases hk : k' = k
    · subst hk
      exact .inr (pending_of_journal hjournal hinv.journal)
    · rw [update_of_ne hk] at hrow'
      refine (hinv.kept k' row' hrow' hrange).imp_right fun hpending => ?_
      refine hpending.master hjournal fun i' hle hnode' => ?_
      refine ⟨by rw [hmax]; exact hle.trans (le_max_left _ _), ?_⟩
      have hi : i' ≠ i := by
        rintro rfl
        rcases hfree with hfree | ⟨-, hfree⟩
        · exact hk (Option.some.inj (hnode'.symm.trans hfree))
        · exact absurd (hnode'.symm.trans hfree) (by simp)
      rw [hnode, update_of_ne hi, hnode']
  · intro hplace
    obtain ⟨j, hj, hle⟩ := hinv.journal hplace
    refine ⟨j, hj, ?_⟩
    dsimp only
    rw [hjournal, List.length_append]
    exact Nat.le_add_right_of_le hle

theorem Inv.deleteRow (hinv : s.Inv appFieldInfo valueOf) {k : Bytes} {row : Row} {m : Master}
    (hok : InRangeField appFieldInfo k row → ¬ InIndex s.index (indexRow valueOf k row))
    (h : s.master.deleteRow k row = some m) :
    ({ s with master := m } : System).Inv appFieldInfo valueOf := by
  obtain ⟨-, hdata, hnode, hmax, hjournal⟩ := Master.deleteRow_spec h
  have hsub : ∀ k', m.data k' ⊆ s.master.data k' := by
    intro k' row' hrow'
    rw [hdata] at hrow'
    by_cases hk : k' = k
    · subst hk
      rw [update_self] at hrow'
      exact List.mem_of_mem_erase hrow'
    · rwa [update_of_ne hk] at hrow'
  constructor
  · intro k' row' hrow' hrange
    exact hinv.spelled k' row' (hsub k' hrow') hrange
  · intro x hx
    obtain ⟨k', row', hrow', hrange, rfl⟩ := hinv.sound x hx
    refine ⟨k', row', ?_, hrange, rfl⟩
    dsimp only
    rw [hdata]
    by_cases hk : k' = k
    · subst hk
      have hne : row' ≠ row := by
        rintro rfl
        exact hok hrange hx
      rw [update_self]
      exact (List.mem_erase_of_ne hne).mpr hrow'
    · rwa [update_of_ne hk]
  · intro k' row' hrow' hrange
    by_cases hk : k' = k
    · subst hk
      exact .inr (pending_of_journal hjournal hinv.journal)
    · refine (hinv.kept k' row' (hsub k' hrow') hrange).imp_right fun hpending => ?_
      refine hpending.master hjournal fun i' hle hnode' => ⟨by rwa [hmax], ?_⟩
      rw [hnode]
      dsimp only
      rw [if_neg (by simp [hnode', hk]), hnode']
  · intro hplace
    obtain ⟨j, hj, hle⟩ := hinv.journal hplace
    refine ⟨j, hj, ?_⟩
    dsimp only
    rw [hjournal, List.length_append]
    exact Nat.le_add_right_of_le hle

/-! ## Steps of the unit -/

/-- A step of the unit that leaves the index as it is keeps what is pending. -/
theorem Inv.of_pending (hinv : s.Inv appFieldInfo valueOf) (hmaster : s'.master = s.master)
    (hindex : s'.index = s.index)
      (hpending : ∀ k, s.master.data k ≠ [] → s.Pending k → s'.Pending k)
    (hjournal : s'.place ≠ .off → ∃ j ∈ s'.unit.journalId, j ≤ s.master.journal.length) :
    s'.Inv appFieldInfo valueOf := by
  constructor
  · rw [hmaster]
    exact hinv.spelled
  · rw [hmaster, hindex]
    exact hinv.sound
  · rw [hmaster, hindex]
    intro k row hrow hrange
    exact (hinv.kept k row hrow hrange).imp_right (hpending k (List.ne_nil_of_mem hrow))
  · rw [hmaster]
    exact hjournal

theorem Inv.startSync (hinv : s.Inv appFieldInfo valueOf) :
    s.startSync.Inv appFieldInfo valueOf := by
  refine hinv.of_pending rfl rfl (fun k hk _ => ?_) fun _ => ⟨_, rfl, le_refl _⟩
  obtain ⟨i, hle, hnode⟩ := s.master.placed k hk
  exact .inr (.inr (.inr ⟨rfl, i, Nat.zero_le i, hle, hnode⟩))

/-- The unit goes to another place without a request. -/
theorem Inv.goto (hinv : s.Inv appFieldInfo valueOf) {place : Place} {roundOk : Bool}
    (hoff : s.place ≠ .off) (hkeys : s.place.keys ⊆ place.keys)
    (hstart : place.nextStart s.unit.start ≤ s.place.nextStart s.unit.start) :
    ({ s with place := place, roundOk := roundOk } : System).Inv appFieldInfo valueOf := by
  refine hinv.of_pending rfl rfl (fun k _ hpending => ?_) fun _ => hinv.journal hoff
  rcases hpending with h | h | h | ⟨hstage, i, hi, hle, hnode⟩
  · exact absurd h hoff
  · exact .inr (.inl (hkeys h))
  · exact .inr (.inr (.inl h))
  · exact .inr (.inr (.inr ⟨hstage, i, hstart.trans hi, hle, hnode⟩))

theorem mem_getKeyList {m : Master} {start n : Nat} {keys : List Bytes}
    (h : m.getKeyList start n = some keys) {i : Nat} {k : Bytes} (hlo : start ≤ i)
    (hhi : i < start + n) (hle : i ≤ m.maxNodeId) (hnode : m.node i = some k) : k ∈ keys := by
  rw [Master.getKeyList] at h
  split at h
  · cases h
  · cases h
    refine List.mem_filterMap.mpr ⟨i, ?_, hnode⟩
    rw [List.mem_range'_1]
    omega

theorem getKeyList_eq_none {m : Master} {start n : Nat} :
    m.getKeyList start n = none ↔ m.maxNodeId < start := by
  simp [Master.getKeyList]

theorem drop_eq_take_append {α : Type} (l : List α) (j n : Nat) :
    l.drop j = (l.drop j).take n ++ l.drop (j + ((l.drop j).take n).length) := by
  rw [← List.drop_drop]
  exact (List.prefix_iff_eq_append.mp (List.take_prefix n (l.drop j))).symm

/-- A request for the changed keys that is answered or refused keeps what is in the journal. -/
theorem getUpdateKey_spec {m : Master} {j : Nat} {outcome : Outcome} (hout : outcome ≠ .lost)
    (hj : j < m.journal.length) :
    ∃ ok keys j', getUpdateKey m (some j) outcome = (ok, keys, some j') ∧ j' ≤ m.journal.length ∧
      m.journal.drop j = keys ++ m.journal.drop j' := by
  cases outcome with
  | lost => exact absurd rfl hout
  | error => exact ⟨false, [], j, rfl, hj.le, rfl⟩
  | ok =>
    refine ⟨true, _, _, if_pos hj, ?_, drop_eq_take_append _ _ limit⟩
    rw [List.length_take, List.length_drop]
    omega

/-- The rows of the key that was reported are fetched. -/
theorem Inv.update (hinv : s.Inv appFieldInfo valueOf) {outcome : Outcome} {k : Bytes}
    {place : Place} (hcut : cString k = k ∨ s.master.data (cString k) = [])
    (hout : outcome = .ok ∨ s.Indexed appFieldInfo valueOf k)
      (hkeys : s.place.keys = k :: place.keys)
    (hoff : s.place ≠ .off)
    (hstart : place.nextStart s.unit.start = s.place.nextStart s.unit.start)
    (h : s.update appFieldInfo outcome k place = some s') : s'.Inv appFieldInfo valueOf := by
  obtain ⟨index, hindex, h⟩ := bind_eq_some_iff.mp h
  cases h
  have hmem := inIndex_updateOneIndex hcut (hinv.spelled k) hindex
  constructor
  · exact hinv.spelled
  · intro x hx
    rcases (hmem x).mp hx with hx | ⟨-, row, hrow, hrange, rfl⟩
    · exact hinv.sound x hx
    · exact ⟨k, row, hrow, hrange, rfl⟩
  · intro k' row hrow hrange
    rcases hinv.kept k' row hrow hrange with hin | hpending
    · exact .inl ((hmem _).mpr (.inl hin))
    · by_cases hk : k' = k
      · subst hk
        rcases hout with hout | hout
        · exact .inl ((hmem _).mpr (.inr ⟨hout, row, hrow, hrange, rfl⟩))
        · exact .inl ((hmem _).mpr (.inl (hout row hrow hrange)))
      · refine .inr ?_
        rcases hpending with h | h | h | ⟨hstage, i, hi, hle, hnode⟩
        · exact absurd h hoff
        · rw [hkeys] at h
          exact .inr (.inl (List.mem_of_ne_of_mem hk h))
        · exact .inr (.inr (.inl h))
        · exact .inr (.inr (.inr ⟨hstage, i, hstart.le.trans hi, hle, hnode⟩))
  · exact fun _ => hinv.journal hoff

theorem Inv.run (hinv : s.Inv appFieldInfo valueOf) {outcome : Outcome}
    (hok : s.StepOk appFieldInfo valueOf (.run outcome))
      (h : s.run appFieldInfo outcome = some s') :
    s'.Inv appFieldInfo valueOf := by
  obtain ⟨hhead, hinc⟩ := hok
  unfold System.run at h
  cases hplace : s.place with
  | off =>
    rw [hplace] at h
    cases h
  | idle =>
    rw [hplace] at h
    cases h
  | full count =>
    have hoff : s.place ≠ .off := by simp [hplace]
    rw [hplace] at h
    dsimp only at h
    split at h
    · split at h
      · rename_i hnone
        rw [getKeyList_eq_none] at hnone
        cases h
        -- no node is left to be listed
        refine hinv.of_pending rfl rfl (fun k _ hpending => ?_) fun _ => hinv.journal hoff
        rcases hpending with h | h | h | ⟨-, i, hi, hle, -⟩
        · exact absurd h hoff
        · simp [hplace, Place.keys] at h
        · exact .inr (.inr (.inl h))
        · rw [hplace] at hi
          exact absurd (hi.trans hle) (Nat.not_le.mpr hnone)
      · rename_i keys hkeys
        cases h
        -- the nodes of the batch are reported
        refine hinv.of_pending rfl rfl (fun k _ hpending => ?_) fun _ => hinv.journal hoff
        rcases hpending with h | h | h | ⟨hstage, i, hi, hle, hnode⟩
        · exact absurd h hoff
        · simp [hplace, Place.keys] at h
        · exact .inr (.inr (.inl h))
        · rw [hplace] at hi
          rcases Nat.lt_or_ge i (s.unit.start + limit) with hlt | hge
          · exact .inr (.inl (mem_getKeyList hkeys hi hlt hle hnode))
          · exact .inr (.inr (.inr ⟨hstage, i, hge, hle, hnode⟩))
    · cases h
      refine hinv.goto hoff (by simp [hplace, Place.keys]) ?_
      rw [hplace, nextBatch]
      split <;> exact le_refl _
  | fullRows count keys =>
    have hoff : s.place ≠ .off := by simp [hplace]
    rw [hplace] at h
    cases keys with
    | nil =>
      cases h
      refine hinv.of_pending rfl rfl (fun k _ hpending => ?_) fun _ => hinv.journal hoff
      rcases hpending with h | h | h | ⟨hstage, i, hi, hle, hnode⟩
      · exact absurd h hoff
      · simp [hplace, Place.keys] at h
      · exact .inr (.inr (.inl h))
      · rw [hplace] at hi
        refine .inr (.inr (.inr ⟨hstage, i, ?_, hle, hnode⟩))
        dsimp only [nextBatch]
        split <;> exact hi
    | cons k keys =>
      obtain ⟨hcut, hout⟩ := hhead k (by simp [hplace, Place.keys])
      exact hinv.update hcut hout (by simp [hplace, Place.keys]) hoff (by rw [hplace]; rfl) h
  | inc =>
    have hoff : s.place ≠ .off := by simp [hplace]
    obtain ⟨hlost, j, hj, hlt⟩ := hinc hplace
    obtain ⟨ok, keys, j', hget, hle, hdrop⟩ := getUpdateKey_spec hlost hlt
    rw [hplace] at h
    dsimp only at h
    rw [mem_def.mp hj, hget] at h
    cases h
    refine hinv.of_pending rfl rfl (fun k _ hpending => ?_) fun _ => ⟨j', rfl, hle⟩
    rcases hpending with h | h | ⟨j₀, hj₀, h⟩ | ⟨hstage, i, hi, hle, hnode⟩
    · exact absurd h hoff
    · simp [hplace, Place.keys] at h
    · cases hj.symm.trans hj₀
      rw [hdrop, List.mem_append] at h
      rcases h with h | h
      · exact .inr (.inl h)
      · exact .inr (.inr (.inl ⟨j', rfl, h⟩))
    · rw [hplace] at hi
      exact .inr (.inr (.inr ⟨hstage, i, hi, hle, hnode⟩))
  | incRows keys =>
    have hoff : s.place ≠ .off := by simp [hplace]
    rw [hplace] at h
    cases keys with
    | nil =>
      cases h
      exact hinv.goto hoff (by simp [hplace, Place.keys]) (by rw [hplace]; exact le_refl _)
    | cons k keys =>
      obtain ⟨hcut, hout⟩ := hhead k (by simp [hplace, Place.keys])
      exact hinv.update hcut hout (by simp [hplace, Place.keys]) hoff (by rw [hplace]; rfl) h

theorem Inv.step (hinv : s.Inv appFieldInfo valueOf) {e : Event}
    (hok : s.StepOk appFieldInfo valueOf e) (h : s.step appFieldInfo e = some s') :
    s'.Inv appFieldInfo valueOf := by
  cases e with
  | insertRow k row i =>
    obtain ⟨m, hm, rfl⟩ := map_eq_some_iff.mp h
    exact hinv.insertRow hok hm
  | deleteRow k row =>
    obtain ⟨m, hm, rfl⟩ := map_eq_some_iff.mp h
    exact hinv.deleteRow hok hm
  | startSync =>
    rw [System.step] at h
    split at h
    · cases h
      exact hinv.startSync
    · cases h
  | round =>
    rw [System.step] at h
    split at h
    · rename_i hidle
      cases h
      refine hinv.goto (by simp [hidle]) (by simp [hidle, Place.keys]) ?_
      rw [hidle]
      split <;> exact le_refl _
    · cases h
  | run outcome => exact hinv.run hok h

theorem inv_start : start.Inv appFieldInfo valueOf where
  spelled _ _ hrow := by cases hrow
  sound := by
    rintro x ⟨set, hset, -⟩
    cases hset
  kept _ _ hrow := by cases hrow
  journal h := absurd rfl h

theorem Inv.follows (hinv : s.Inv appFieldInfo valueOf) : s.Follows appFieldInfo valueOf := by
  refine ⟨fun hcaught x => ⟨hinv.sound x, ?_⟩, hinv.kept⟩
  obtain ⟨hidle, -, hstage, hjournal⟩ := hcaught
  rintro ⟨k, row, hrow, hrange, rfl⟩
  refine (hinv.kept k row hrow hrange).resolve_right fun hpending => ?_
  rcases hpending with h | h | ⟨j, hj, h⟩ | ⟨hfull, -⟩
  · exact absurd (hidle.symm.trans h) (by decide)
  · simp [hidle, Place.keys] at h
  · cases hjournal.symm.trans hj
    simp at h
  · exact absurd (hstage.symm.trans hfull) (by decide)

/-- The index follows its master along every run whose steps all meet `StepOk`. -/
theorem follows_run (appFieldInfo : UInt32 → List AppFieldInfo) (valueOf : Bytes → Int)
    (events : List Event) (s : System)
    (hok : AlongRun (step appFieldInfo) (StepOk appFieldInfo valueOf) start events)
    (hrun : runOps (step appFieldInfo) start events = some s) : s.Follows appFieldInfo valueOf :=
  (invariant_run_along (fun _ _ _ hinv hok h => hinv.step hok h) inv_start events hok hrun).follows

/-- Field 3 has a range index. -/
def oneField (_ : UInt32) : List AppFieldInfo := [⟨5, 3⟩]

def docOne : Row := ⟨[97], 1, 3⟩
def docTwo : Row := ⟨[98], 1, 3⟩

/-- `1#00#5`. -/
def textKey : Bytes := [49, 35, 48, 48, 35, 53]

def textRound : List Event :=
  [.insertRow textKey docOne 0, .startSync, .run .ok, .insertRow textKey docTwo 0,
    .run .ok, .run .ok,
    .run .ok, .run .ok, .run .ok, .run .ok]

theorem follows_textRound :
    ∃ s, runOps (step oneField) start textRound = some s ∧ s.CaughtUp ∧
      s.Follows oneField fun _ => 5 := by
  have hcaught : (runOps (step oneField) start textRound).any fun s => s.CaughtUp := by
    decide +kernel
  obtain ⟨s, hs, hcaught⟩ := (any_eq_true _ _).mp hcaught
  exact ⟨s, hs, of_decide_eq_true hcaught,
    follows_run oneField (fun _ => 5) textRound s (by decide +kernel) hs⟩

/-- The key of the number 5 in the application 1. -/
def numberKey : Bytes := [49, 35, 48, 48, 35] ++ KeyFormat.encodeBytesS64 5

def numberRound : List Event :=
  [.startSync, .insertRow numberKey docOne 0, .run .ok, .run .ok, .run .ok, .run .ok, .run .ok,
    .run .ok, .run .ok]

/-- A number that is stored does not come into the index, with every request answered. -/
theorem not_follows_numberRound :
    ∃ s, runOps (step oneField) start numberRound = some s ∧ s.CaughtUp ∧
      docOne ∈ s.master.data numberKey ∧ InRangeField oneField numberKey docOne ∧
      ∀ n docId, ¬ InIndex s.index ((indexRow (fun _ => 5) numberKey docOne).1, n, docId) := by
  have hrun : (runOps (step oneField) start numberRound).any fun s =>
      s.CaughtUp ∧ docOne ∈ s.master.data numberKey ∧ InRangeField oneField numberKey docOne ∧
        s.index.entries = [] := by
    decide +kernel
  obtain ⟨s, hs, hlast⟩ := (any_eq_true _ _).mp hrun
  obtain ⟨hcaught, hrow, hrange, hempty⟩ := of_decide_eq_true hlast
  refine ⟨s, hs, hcaught, hrow, hrange, ?_⟩
  rintro n docId ⟨set, hset, -⟩
  rw [mem_def, SortedMap.get?_eq_some, hempty] at hset
  cases hset

end System

end ISearch.IndexSync
