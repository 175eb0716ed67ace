import ISearch.RocksProcess.Operations

/-!
# Updates that change the key

`process_update` collects the new entries and the keys to delete in one scan, and writes them as a
batch at its end. The scan fails exactly if a new key clashes with a key under the primary key or
with another new key; what the batch does otherwise is described on the rows of the storage.
-/

namespace ISearch.RocksProcess

open KeyFormat List
open Option hiding map_map map_id filter_map all_eq_true filter_filter mem_map

variable {t : Table} {db : Db} {rows : List (Row t)} {key : (t.type 0).Value}
  {conds : List (Condition t)} {updateInfo : UpdateInfo t}

/-! ## The scan -/

def UpdateState.newKeys (s : UpdateState) : List Bytes := s.newEntries.map (·.1)

/-- What a visited row adds to the state. -/
def UpdateState.visit (conds : List (Condition t)) (updateInfo : UpdateInfo t) (s : UpdateState)
    (row : Row t) : UpdateState :=
  if row.passes conds then
    { s with
      affectRows := s.affectRows + 1
      deletedKeys := row.rocksKey :: s.deletedKeys
      newEntries := (row.written updateInfo).entry :: s.newEntries }
  else { s with originKeys := row.rocksKey :: s.originKeys }

/-- No key clashes in the rest of the scan. -/
structure Fresh (conds : List (Condition t)) (updateInfo : UpdateInfo t) (s : UpdateState)
    (rows : List (Row t)) : Prop where
  key : ∀ row ∈ rows, row.rocksKey ∉ s.newKeys
  new : ∀ row ∈ rows, row.passes conds = true → (row.written updateInfo).rocksKey ∉ s.originKeys ∧
    (row.written updateInfo).rocksKey ∉ s.newKeys ∧
    (row.written updateInfo).rocksKey ∉ s.deletedKeys
  kept : ∀ row ∈ rows, row.passes conds = true → ∀ row' ∈ rows,
    (row.written updateInfo).rocksKey ≠ row'.rocksKey
  distinct : rows.Pairwise fun row row' => row.passes conds = true → row'.passes conds = true →
    (row.written updateInfo).rocksKey ≠ (row'.written updateInfo).rocksKey

theorem visit_of_passes {s : UpdateState} {row : Row t} (h : row.passes conds = true) :
    s.visit conds updateInfo row =
      { s with
        affectRows := s.affectRows + 1
        deletedKeys := row.rocksKey :: s.deletedKeys
        newEntries := (row.written updateInfo).entry :: s.newEntries } :=
  if_pos h

theorem visit_of_not_passes {s : UpdateState} {row : Row t} (h : ¬ row.passes conds = true) :
    s.visit conds updateInfo row = { s with originKeys := row.rocksKey :: s.originKeys } :=
  if_neg h

theorem newKeys_visit_of_passes {s : UpdateState} {row : Row t} (h : row.passes conds = true) :
    (s.visit conds updateInfo row).newKeys = (row.written updateInfo).rocksKey :: s.newKeys := by
  rw [visit_of_passes h]
  rfl

/-- One row of the scan. -/
theorem fresh_cons {s : UpdateState} {row : Row t} :
    Fresh conds updateInfo s (row :: rows) ↔
      row.rocksKey ∉ s.newKeys ∧
      (row.passes conds = true → (row.written updateInfo).rocksKey ≠ row.rocksKey ∧
        (row.written updateInfo).rocksKey ∉ s.originKeys ∧
        (row.written updateInfo).rocksKey ∉ s.newKeys ∧
        (row.written updateInfo).rocksKey ∉ s.deletedKeys) ∧
      Fresh conds updateInfo (s.visit conds updateInfo row) rows := by
  by_cases hpass : row.passes conds = true
  · constructor
    · intro h
      obtain ⟨hdistinct, hrest⟩ := pairwise_cons.mp h.distinct
      refine ⟨h.key row mem_cons_self, fun _ => ⟨h.kept row mem_cons_self hpass row
        mem_cons_self, h.new row mem_cons_self hpass⟩, ?_, ?_, ?_, hrest⟩
      · intro row' hrow'
        rw [newKeys_visit_of_passes hpass, mem_cons, not_or]
        exact ⟨(h.kept row mem_cons_self hpass row' (mem_cons_of_mem row hrow')).symm,
          h.key row' (mem_cons_of_mem row hrow')⟩
      · intro row' hrow' hpass'
        have hmem := mem_cons_of_mem row hrow'
        obtain ⟨horigin, hnew, hdel⟩ := h.new row' hmem hpass'
        rw [newKeys_visit_of_passes hpass, visit_of_passes hpass]
        refine ⟨horigin, ?_, ?_⟩
        · rw [mem_cons, not_or]
          exact ⟨(hdistinct row' hrow' hpass hpass').symm, hnew⟩
        · rw [mem_cons, not_or]
          exact ⟨h.kept row' hmem hpass' row mem_cons_self, hdel⟩
      · intro row' hrow' hpass' row'' hrow''
        exact h.kept row' (mem_cons_of_mem row hrow') hpass' row''
          (mem_cons_of_mem row hrow'')
    · rintro ⟨hkey, hnew, h⟩
      obtain ⟨hown, hnew⟩ := hnew hpass
      have hkeys := h.key
      have hnews := h.new
      rw [newKeys_visit_of_passes hpass] at hkeys hnews
      rw [visit_of_passes hpass] at hnews
      refine ⟨?_, ?_, ?_, pairwise_cons.mpr ⟨?_, h.distinct⟩⟩
      · rintro row' (_ | ⟨_, hrow'⟩)
        · exact hkey
        · exact fun hmem => hkeys row' hrow' (mem_cons_of_mem _ hmem)
      · rintro row' (_ | ⟨_, hrow'⟩) hpass'
        · exact hnew
        · obtain ⟨horigin', hnew', hdel'⟩ := hnews row' hrow' hpass'
          exact ⟨horigin', fun hmem => hnew' (mem_cons_of_mem _ hmem),
            fun hmem => hdel' (mem_cons_of_mem _ hmem)⟩
      · rintro row' (_ | ⟨_, hrow'⟩) hpass' row'' (_ | ⟨_, hrow''⟩)
        · exact hown
        · exact fun heq => hkeys row'' hrow'' (mem_cons.mpr (.inl heq.symm))
        · exact fun heq => (hnews row' hrow' hpass').2.2 (mem_cons.mpr (.inl heq))
        · exact h.kept row' hrow' hpass' row'' hrow''
      · intro row' hrow' _ hpass' heq
        exact (hnews row' hrow' hpass').2.1 (mem_cons.mpr (.inl heq.symm))
  · have hvisit : s.visit conds updateInfo row = _ := visit_of_not_passes hpass
    constructor
    · intro h
      refine ⟨h.key row mem_cons_self, fun hp => absurd hp hpass, ?_⟩
      rw [hvisit]
      refine ⟨fun row' hrow' => h.key row' (mem_cons_of_mem row hrow'), ?_, ?_,
        (pairwise_cons.mp h.distinct).2⟩
      · intro row' hrow' hpass'
        have hmem := mem_cons_of_mem row hrow'
        obtain ⟨horigin, hnew⟩ := h.new row' hmem hpass'
        refine ⟨?_, hnew⟩
        rw [mem_cons, not_or]
        exact ⟨h.kept row' hmem hpass' row mem_cons_self, horigin⟩
      · intro row' hrow' hpass' row'' hrow''
        exact h.kept row' (mem_cons_of_mem row hrow') hpass' row''
          (mem_cons_of_mem row hrow'')
    · rintro ⟨hkey, -, h⟩
      rw [hvisit] at h
      refine ⟨?_, ?_, ?_, pairwise_cons.mpr ⟨fun _ _ hp => absurd hp hpass, h.distinct⟩⟩
      · rintro row' (_ | ⟨_, hrow'⟩)
        · exact hkey
        · exact h.key row' hrow'
      · rintro row' (_ | ⟨_, hrow'⟩) hpass'
        · exact absurd hpass' hpass
        · obtain ⟨horigin, hnew⟩ := h.new row' hrow' hpass'
          exact ⟨fun hmem => horigin (mem_cons_of_mem _ hmem), hnew⟩
      · rintro row' (_ | ⟨_, hrow'⟩) hpass' row'' (_ | ⟨_, hrow''⟩)
        · exact absurd hpass' hpass
        · exact absurd hpass' hpass
        · exact fun heq => (h.new row' hrow' hpass').1 (mem_cons.mpr (.inl heq))
        · exact h.kept row' hrow' hpass' row'' hrow''

/-- What comes behind the rows under the primary key ends the scan. -/
structure Behind (preKey : Bytes) (rest : List (Bytes × Bytes)) : Prop where
  head : ∀ e ∈ rest.head?, keyMatched preKey e.1 = false

theorem updateKeyLoop_behind {preKey : Bytes} {rest : List (Bytes × Bytes)} {s : UpdateState}
    (hrest : Behind preKey rest) (hs : ∀ k ∈ s.newKeys, keyMatched preKey k = true) :
    updateKeyLoop conds updateInfo preKey rest s = some (.ok s) := by
  cases rest with
  | nil => rfl
  | cons e rest =>
    have hhead := hrest.head e rfl
    rw [updateKeyLoop, if_neg, if_neg (by simp [hhead])]
    intro hmem
    rw [hs e.1 hmem] at hhead
    cases hhead

/-- The scan visits the rows under the primary key, or fails because of a clash. -/
theorem updateKeyLoop_entries {preKey : Bytes} {rest : List (Bytes × Bytes)} {s : UpdateState}
    (hrest : Behind preKey rest) (hs : ∀ k ∈ s.newKeys, keyMatched preKey k = true)
    (hkey : updatesKey updateInfo = true) (hsup : supported updateInfo = true)
    (hrows : ∀ row ∈ rows, row.Fits ∧ keyMatched preKey row.rocksKey = true ∧
      keyMatched preKey (row.written updateInfo).rocksKey = true ∧
      (row.passes conds = true → AddsOk updateInfo (row.base updateInfo))) :
    (Fresh conds updateInfo s rows →
      updateKeyLoop conds updateInfo preKey (rows.map Row.entry ++ rest) s =
        some (.ok (rows.foldl (UpdateState.visit conds updateInfo) s))) ∧
    (¬ Fresh conds updateInfo s rows →
      updateKeyLoop conds updateInfo preKey (rows.map Row.entry ++ rest) s =
        some (.error .dupEntry)) := by
  induction rows generalizing s with
  | nil =>
    refine ⟨fun _ => updateKeyLoop_behind hrest hs, fun hnot => absurd ?_ hnot⟩
    exact ⟨by simp, by simp, by simp, List.Pairwise.nil⟩
  | cons row rows ih =>
    obtain ⟨hfits, hmatched, hnewMatched, hadds⟩ := hrows row mem_cons_self
    have hs' : ∀ k ∈ (s.visit conds updateInfo row).newKeys, keyMatched preKey k = true := by
      intro k hk
      by_cases hpass : row.passes conds = true
      · rw [newKeys_visit_of_passes hpass] at hk
        rcases mem_cons.mp hk with rfl | hk
        · exact hnewMatched
        · exact hs k hk
      · rw [visit_of_not_passes hpass] at hk
        exact hs k hk
    have hih := ih hs' fun row' hrow' => hrows row' (mem_cons_of_mem row hrow')
    rw [fresh_cons, map_cons, cons_append, Row.entry, updateKeyLoop, foldl_cons]
    by_cases hold : row.rocksKey ∈ s.newKeys
    · exact ⟨fun h => absurd hold h.1, fun _ => if_pos hold⟩
    · rw [if_neg (by exact hold), if_pos hmatched, updateRow_key hfits hkey hadds, hsup]
      by_cases hpass : row.passes conds = true
      · simp only [if_pos hpass, if_true, bind_eq_bind, bind_some]
        rw [visit_of_passes hpass] at hih ⊢
        by_cases hown : (row.written updateInfo).rocksKey = row.rocksKey
        · rw [if_pos hown]
          exact ⟨fun h => absurd hown (h.2.1 hpass).1, fun _ => rfl⟩
        · rw [if_neg hown]
          split
          · rename_i hnew
            constructor
            · intro h
              exact hih.1 h.2.2
            · intro h
              exact hih.2 fun hfresh => h ⟨hold, fun _ => ⟨hown, hnew⟩, hfresh⟩
          · rename_i hnew
            exact ⟨fun h => absurd (h.2.1 hpass).2 hnew, fun _ => rfl⟩
      · simp only [if_neg hpass, bind_eq_bind, bind_some]
        rw [visit_of_not_passes hpass] at hih ⊢
        constructor
        · intro h
          exact hih.1 h.2.2
        · intro h
          exact hih.2 fun hfresh => h ⟨hold, fun hp => absurd hp hpass, hfresh⟩

/-- With an operation that is not supported no row is changed. -/
theorem updateKeyLoop_unsupported {preKey : Bytes} {rest : List (Bytes × Bytes)} {s : UpdateState}
    (hrest : Behind preKey rest) (hs : s.newEntries = [])
    (hkey : updatesKey updateInfo = true) (hsup : supported updateInfo = false)
    (hrows : ∀ row ∈ rows, row.Fits ∧ keyMatched preKey row.rocksKey = true ∧
      (row.passes conds = true → AddsOk updateInfo (row.base updateInfo))) :
    ∃ originKeys, updateKeyLoop conds updateInfo preKey (rows.map Row.entry ++ rest) s =
      some (.ok { s with originKeys }) := by
  induction rows generalizing s with
  | nil =>
    refine ⟨s.originKeys, updateKeyLoop_behind hrest ?_⟩
    simp [UpdateState.newKeys, hs]
  | cons row rows ih =>
    obtain ⟨hfits, hmatched, hadds⟩ := hrows row mem_cons_self
    have hrows' := fun row' hrow' => hrows row' (mem_cons_of_mem row hrow')
    rw [map_cons, cons_append, Row.entry, updateKeyLoop, if_neg (by simp [hs]),
      if_pos hmatched, updateRow_key hfits hkey hadds, hsup]
    by_cases hpass : row.passes conds = true
    · simp only [if_pos hpass, Bool.false_eq_true, if_false, bind_eq_bind, bind_some]
      exact ih hs hrows'
    · simp only [if_neg hpass, bind_eq_bind, bind_some]
      obtain ⟨originKeys, h⟩ :=
        ih (s := { s with originKeys := row.rocksKey :: s.originKeys }) hs hrows'
      exact ⟨originKeys, h⟩

/-- The state at the end of the scan. -/
theorem foldl_visit (conds : List (Condition t)) (updateInfo : UpdateInfo t) (rows : List (Row t))
    (s : UpdateState) :
    (rows.foldl (UpdateState.visit conds updateInfo) s).deletedKeys =
        ((rows.filter fun row => row.passes conds).map Row.rocksKey).reverse ++ s.deletedKeys ∧
      (rows.foldl (UpdateState.visit conds updateInfo) s).newEntries =
        ((rows.filter fun row => row.passes conds).map fun row =>
          (row.written updateInfo).entry).reverse ++ s.newEntries ∧
      (rows.foldl (UpdateState.visit conds updateInfo) s).affectRows =
        s.affectRows + (rows.filter fun row => row.passes conds).length := by
  induction rows generalizing s with
  | nil => simp
  | cons row rows ih =>
    rw [foldl_cons]
    obtain ⟨hdel, hnew, haffect⟩ := ih (s.visit conds updateInfo row)
    rw [hdel, hnew, haffect]
    by_cases hpass : row.passes conds = true
    · rw [visit_of_passes hpass, filter_cons_of_pos (by exact hpass)]
      simp
      omega
    · rw [visit_of_not_passes hpass, filter_cons_of_neg (by exact hpass)]
      exact ⟨rfl, rfl, rfl⟩

theorem Stores.erase (h : Stores db rows) (k : Bytes) :
    Stores (SortedMap.erase db k) (rows.filter fun row => row.rocksKey ≠ k) := by
  refine ⟨?_, fun row hrow => h.fits row (mem_filter.mp hrow).1,
    fun row hrow => h.key_ne row (mem_filter.mp hrow).1⟩
  simp only [SortedMap.erase, h.entries, filter_map, Function.comp_def, Row.entry]
  congr
  funext row
  exact decide_eq_decide.mpr Iff.rfl

theorem Stores.eraseAll (h : Stores db rows) (ks : List Bytes) :
    Stores (ks.foldl SortedMap.erase db) (rows.filter fun row => row.rocksKey ∉ ks) := by
  induction ks generalizing db rows with
  | nil => simpa using h
  | cons k ks ih =>
    have hrest := ih (h.erase k)
    rw [filter_filter] at hrest
    have hfilter : rows.filter (fun row => decide (row.rocksKey ∉ k :: ks)) =
        rows.filter fun row => decide (row.rocksKey ∉ ks) && decide (row.rocksKey ≠ k) := by
      apply filter_congr
      intro row _
      simp only [mem_cons, not_or, Bool.decide_and, Bool.and_comm, ne_eq]
    rw [foldl_cons, hfilter]
    exact hrest

/-- Rows with new keys are added. -/
theorem Stores.putAll (h : Stores db rows) (news : List (Row t))
    (hfits : ∀ row ∈ news, row.Fits ∧ row.str 0 ≠ [])
    (hnew : ∀ row ∈ news, ∀ row' ∈ rows, row.rocksKey ≠ row'.rocksKey)
    (hdistinct : news.Pairwise fun row row' => row.rocksKey ≠ row'.rocksKey) :
    ∃ rows', Stores (db.putAll (news.map Row.entry)) rows' ∧ rows'.Perm (news ++ rows) := by
  induction news generalizing db rows with
  | nil => exact ⟨rows, h, List.Perm.refl rows⟩
  | cons row news ih =>
    obtain ⟨hne, hdistinct⟩ := pairwise_cons.mp hdistinct
    have hget : db.get? row.rocksKey = none := by
      rw [SortedMap.get?_eq_none]
      intro v hv
      rw [h.entries] at hv
      obtain ⟨row', hrow', heq⟩ := mem_map.mp hv
      exact hnew row mem_cons_self row' hrow' (congrArg Prod.fst heq).symm
    have hperm := h.insertRow_perm hget
    have hput := h.put (hfits row mem_cons_self).1 (hfits row mem_cons_self).2
    obtain ⟨rows', hrows', hperm'⟩ := ih hput
      (fun row' hrow' => hfits row' (mem_cons_of_mem row hrow')) (by
        intro row' hrow' row'' hrow''
        rcases mem_cons.mp (hperm.mem_iff.mp hrow'') with rfl | hrow''
        · exact (hne row' hrow').symm
        · exact hnew row' (mem_cons_of_mem row hrow') row'' hrow'') hdistinct
    refine ⟨rows', hrows', hperm'.trans ?_⟩
    exact (hperm.append_left news).trans perm_middle

/-- Replacing some elements is removing them and adding others. -/
theorem map_ite_perm {β : Type} (l : List β) (p : β → Bool) (f : β → β) :
    ((l.filter p).map f ++ l.filter fun b => !p b).Perm (l.map fun b => if p b then f b
      else b) := by
  induction l with
  | nil => exact List.Perm.refl []
  | cons b l ih =>
    cases h : p b with
    | true =>
      rw [filter_cons_of_pos h, filter_cons_of_neg (by simp [h])]
      simpa [h] using ih.cons (f b)
    | false =>
      rw [filter_cons_of_neg (by simp [h]), filter_cons_of_pos (by simp [h])]
      simpa [h] using perm_middle.trans (ih.cons b)

/-! ## The update -/

/-- The update fails and leaves the storage as it is, or replaces exactly the matching rows by the
updated ones, without merging any, and reports their number. -/
def KeyUpdateOk (db : Db) (rows : List (Row t)) (key : (t.type 0).Value)
    (conds : List (Condition t)) (updateInfo : UpdateInfo t) : Prop :=
  match processUpdate db key conds updateInfo with
  | none => False
  | some (.error _) => True
  | some (.ok (db', affectRows)) =>
    affectRows = (matching rows key conds).length ∧
      ∃ rows', Stores db' rows' ∧ rows'.Perm (rows.map fun row =>
        if row.Under key ∧ row.meets conds then row.update updateInfo else row)

/-- The new keys are different from each other and from the keys under the primary key. -/
structure NoClash (rows : List (Row t)) (key : (t.type 0).Value) (conds : List (Condition t))
    (updateInfo : UpdateInfo t) : Prop where
  kept : ∀ row ∈ under rows key, row.passes conds = true → ∀ row' ∈ under rows key,
    (row.update updateInfo).rocksKey ≠ row'.rocksKey
  distinct : (under rows key).Pairwise fun row row' => row.passes conds = true →
    row'.passes conds = true → (row.update updateInfo).rocksKey ≠ (row'.update updateInfo).rocksKey

theorem fresh_iff_noClash :
    Fresh conds updateInfo ⟨[], [], [], 0⟩ (under rows key) ↔
      NoClash rows key conds updateInfo := by
  constructor
  · intro h
    constructor
    · intro row hrow hpass row' hrow'
      rw [← rocksKey_written]
      exact h.kept row hrow hpass row' hrow'
    · simpa only [← rocksKey_written] using h.distinct
  · intro h
    refine ⟨by simp [UpdateState.newKeys], by simp [UpdateState.newKeys], ?_, ?_⟩
    · intro row hrow hpass row' hrow'
      rw [rocksKey_written]
      exact h.kept row hrow hpass row' hrow'
    · simpa only [rocksKey_written] using h.distinct

theorem Stores.seek_split (ht : t.StringKey) (h : Stores db rows) (key : (t.type 0).Value) :
    ∃ rest, db.seek (encodePreKey key) = (under rows key).map Row.entry ++ rest ∧
      Behind (encodePreKey key) rest := by
  have hscan := h.scan_under ht key
  have hsplit := takeWhile_append_dropWhile
    (p := fun row : Row t => keyMatched (encodePreKey key) row.rocksKey)
    (l := rows.filter fun row => encodePreKey key ≤ row.rocksKey)
  rw [hscan] at hsplit
  refine ⟨_, by rw [h.seek, ← hsplit, map_append]; rfl, ⟨?_⟩⟩
  intro e he
  rw [List.head?_map] at he
  obtain ⟨row, hrow, rfl⟩ := map_eq_some_iff.mp he
  have hnot := List.head?_dropWhile_not
    (fun row : Row t => keyMatched (encodePreKey key) row.rocksKey)
    (rows.filter fun row => encodePreKey key ≤ row.rocksKey)
  rw [hrow] at hnot
  exact hnot

theorem written_zero {row : Row t} (hops : ∀ op ∈ updateInfo, op.1 ≠ 0) :
    row.written updateInfo 0 = row 0 := by
  have hmem : (0 : t.FieldId) ∈ t.uniqFields := by
    rw [t.uniqFields_eq]
    exact mem_cons_self
  rw [written_of_ne_last (getLast?_ne_of_mem_uniqFields hmem), update_of_notMem hops]

theorem under_written {row : Row t} (hops : ∀ op ∈ updateInfo, op.1 ≠ 0) (h : row.Under key) :
    (row.written updateInfo).Under key := by
  rw [Row.Under, written_zero hops]
  exact h

/-- The rows that are changed. -/
def changed (rows : List (Row t)) (key : (t.type 0).Value) (conds : List (Condition t)) :
    List (Row t) :=
  (under rows key).filter fun row => row.passes conds

section

variable (ht : t.StringKey) (h : Stores db rows) (hkey : updatesKey updateInfo = true)
  (hops : ∀ op ∈ updateInfo, op.1 ≠ 0)
  (hadds : ∀ row ∈ under rows key, row.passes conds = true →
    AddsOk updateInfo (row.base updateInfo))

include ht h hkey hadds

theorem processUpdate_unsupported (hsup : supported updateInfo = false) :
    processUpdate db key conds updateInfo = some (.ok (db, 0)) := by
  obtain ⟨rest, hseek, hrest⟩ := h.seek_split ht key
  obtain ⟨originKeys, hloop⟩ := updateKeyLoop_unsupported (s := ⟨[], [], [], 0⟩) hrest rfl hkey hsup
    fun row hrow => ⟨h.fits row (mem_under.mp hrow).1,
      (ht.keyMatched_iff row).mpr (mem_under.mp hrow).2, hadds row hrow⟩
  rw [processUpdate, if_pos hkey, hseek, hloop]
  rfl

include hops

/-- What `process_update` does. -/
theorem processUpdate_supported (hsup : supported updateInfo = true) :
    (NoClash rows key conds updateInfo → processUpdate db key conds updateInfo =
      some (.ok (batchUpdate db ((changed rows key conds).map Row.rocksKey).reverse
        ((changed rows key conds).map fun row => (row.written updateInfo).entry).reverse,
        (changed rows key conds).length))) ∧
    (¬ NoClash rows key conds updateInfo →
      processUpdate db key conds updateInfo = some (.error .dupEntry)) := by
  obtain ⟨rest, hseek, hrest⟩ := h.seek_split ht key
  have hloop := updateKeyLoop_entries (s := ⟨[], [], [], 0⟩) hrest (by simp [UpdateState.newKeys])
    hkey hsup fun row hrow => ⟨h.fits row (mem_under.mp hrow).1,
      (ht.keyMatched_iff row).mpr (mem_under.mp hrow).2,
      (ht.keyMatched_iff _).mpr (under_written hops (mem_under.mp hrow).2), hadds row hrow⟩
  rw [fresh_iff_noClash] at hloop
  obtain ⟨hdel, hnew, haffect⟩ := foldl_visit conds updateInfo (under rows key) ⟨[], [], [], 0⟩
  rw [processUpdate, if_pos hkey, hseek]
  constructor
  · intro hclash
    rw [hloop.1 hclash]
    simp only [bind_eq_bind, bind_some, hdel, hnew, haffect, append_nil,
      Nat.zero_add]
    rfl
  · intro hclash
    rw [hloop.2 hclash]
    rfl

omit hkey hadds

/-- The storage after the batch. -/
theorem stores_batch (hclash : NoClash rows key conds updateInfo)
    (hfits : ∀ row ∈ changed rows key conds, (row.written updateInfo).Fits) :
    ∃ rows', Stores (batchUpdate db ((changed rows key conds).map Row.rocksKey).reverse
        ((changed rows key conds).map fun row => (row.written updateInfo).entry).reverse) rows' ∧
      rows'.Perm (rows.map fun row =>
        if row.Under key ∧ row.passes conds then row.written updateInfo else row) := by
  have hmem : ∀ row, row ∈ changed rows key conds ↔
      row ∈ rows ∧ row.Under key ∧ row.passes conds = true := by
    intro row
    rw [changed, mem_filter, mem_under, and_assoc]
  have herase := h.eraseAll ((changed rows key conds).map Row.rocksKey).reverse
  have hrest : rows.filter (fun row =>
      decide (row.rocksKey ∉ ((changed rows key conds).map Row.rocksKey).reverse)) =
      rows.filter fun row => !decide (row.Under key ∧ row.passes conds = true) := by
    apply filter_congr
    intro row hrow
    rw [← decide_not, decide_eq_decide, mem_reverse, not_iff_not, mem_map]
    constructor
    · rintro ⟨row', hrow', heq⟩
      obtain ⟨hrows', hchanged⟩ := (hmem row').mp hrow'
      rwa [h.eq_of_rocksKey hrows' hrow heq] at hchanged
    · intro hchanged
      exact ⟨row, (hmem row).mpr ⟨hrow, hchanged⟩, rfl⟩
  rw [hrest] at herase
  obtain ⟨rows', hstores, hperm⟩ := herase.putAll
    ((changed rows key conds).map fun row => row.written updateInfo).reverse
    (by
      intro new hnew
      obtain ⟨row, hrow, rfl⟩ := mem_map.mp (mem_reverse.mp hnew)
      refine ⟨hfits row hrow, ?_⟩
      rw [Row.str, written_zero hops]
      exact h.key_ne row ((hmem row).mp hrow).1)
    (by
      intro new hnew row' hrow' heq
      obtain ⟨row, hrow, rfl⟩ := mem_map.mp (mem_reverse.mp hnew)
      obtain ⟨hrows, hunder, hpass⟩ := (hmem row).mp hrow
      obtain ⟨hrows', -⟩ := mem_filter.mp hrow'
      -- a row with the new key would be under the primary key
      have hunder' : row'.Under key := by
        rw [← ht.keyMatched_iff, ← heq, ht.keyMatched_iff]
        exact under_written hops hunder
      rw [rocksKey_written] at heq
      exact hclash.kept row (mem_under.mpr ⟨hrows, hunder⟩) hpass row'
        (mem_under.mpr ⟨hrows', hunder'⟩) heq)
    (by
      rw [pairwise_reverse, pairwise_map, changed, pairwise_filter]
      refine hclash.distinct.imp fun {row row'} hne hpass hpass' heq => ?_
      rw [rocksKey_written, rocksKey_written] at heq
      exact hne hpass hpass' heq.symm)
  refine ⟨rows', ?_, hperm.trans ?_⟩
  · rw [map_reverse, map_map] at hstores
    exact hstores
  · have hsplit : (rows.filter fun row => decide (row.Under key ∧ row.passes conds = true)) =
        changed rows key conds := by
      rw [changed, under, filter_filter]
      apply filter_congr
      intro row _
      simp [Bool.and_comm]
    have hmap := map_ite_perm rows (fun row => decide (row.Under key ∧ row.passes conds = true))
      fun row => row.written updateInfo
    rw [hsplit] at hmap
    refine (((reverse_perm _).append_right _).trans hmap).trans (List.Perm.of_eq ?_)
    simp only [decide_eq_true_eq]

end

/-- A condition on the primary key does not tell the rows under it apart. -/
theorem holds_of_under {c : Condition t} {row row' : Row t} (hc : c.fieldId = 0)
    (h : row.Under key) (h' : row'.Under key) : c.holds row = c.holds row' := by
  obtain ⟨i, comparator, value⟩ := c
  obtain rfl : i = 0 := hc
  rw [Condition.holds, Condition.holds]
  exact congrArg (fun x => comparator.test ((t.type 0).cmp x (lowerValue _ value)))
    (h.trans h'.symm)

/-- As many rows are changed as match only if these are the matching rows. -/
theorem passes_eq_meets_of_length
    (hlen : (changed rows key conds).length = (matching rows key conds).length) :
    ∀ row ∈ under rows key, row.passes conds = row.meets conds := by
  have heq : changed rows key conds = matching rows key conds := by
    by_cases hmeets : ∃ row ∈ under rows key, row.meets conds = true
    · obtain ⟨row₀, hrow₀, hmeets⟩ := hmeets
      refine List.Sublist.eq_of_length ?_ hlen
      have himp : ∀ row ∈ under rows key, row.passes conds = true → row.meets conds = true := by
        intro row hrow hpass
        rw [Row.meets, all_eq_true] at hmeets ⊢
        rw [Row.passes, all_eq_true] at hpass
        intro c hc
        have hor := hpass c hc
        rw [Bool.or_eq_true, Bool.and_eq_true, decide_eq_true_iff] at hor
        rcases hor with h0 | hor
        · rw [holds_of_under h0 (mem_under.mp hrow).2 (mem_under.mp hrow₀).2]
          exact hmeets c hc
        · exact hor.1
      have hfilter : changed rows key conds =
          (matching rows key conds).filter fun row => row.passes conds := by
        rw [changed, matching, filter_filter]
        apply filter_congr
        intro row hrow
        cases hpass : row.passes conds with
        | false => rfl
        | true => rw [himp row hrow hpass]; rfl
      rw [hfilter]
      exact filter_sublist
    · have hnil : matching rows key conds = [] := by
        rw [matching, filter_eq_nil_iff]
        exact fun row hrow hm => hmeets ⟨row, hrow, hm⟩
      rw [hnil] at hlen ⊢
      exact eq_nil_of_length_eq_zero hlen
  have hmap := map_filter_eq_iff (l := under rows key) (f := id)
    (p := fun row => row.passes conds) (q := fun row => row.meets conds) fun _ _ _ _ => id
  rw [map_id, map_id] at hmap
  exact hmap.mp heq

/-- A changed row is found under its new key. -/
theorem get?_batch (hclash : NoClash rows key conds updateInfo) {row : Row t}
    (hrow : row ∈ changed rows key conds) (db : Db) (deletedKeys : List Bytes) :
    (batchUpdate db deletedKeys ((changed rows key conds).map fun row =>
      (row.written updateInfo).entry).reverse).get? (row.written updateInfo).rocksKey =
      some (row.written updateInfo).rocksValue := by
  rw [batchUpdate]
  apply SortedMap.get?_putAll_of_mem
  · exact mem_reverse.mpr (mem_map_of_mem hrow)
  · intro e he hek
    obtain ⟨row', hrow', rfl⟩ := mem_map.mp (mem_reverse.mp he)
    obtain ⟨hunder, hpass⟩ := mem_filter.mp hrow
    obtain ⟨hunder', hpass'⟩ := mem_filter.mp hrow'
    by_cases heq : row' = row
    · rw [heq]
      rfl
    · have hsymm : Std.Symm fun row row' : Row t => row.passes conds = true →
          row'.passes conds = true →
          (row.update updateInfo).rocksKey ≠ (row'.update updateInfo).rocksKey :=
        ⟨fun _ _ hne hp hp' => (hne hp' hp).symm⟩
      have hkeys : (row'.written updateInfo).rocksKey = (row.written updateInfo).rocksKey := hek
      rw [rocksKey_written, rocksKey_written] at hkeys
      exact absurd hkeys
        (hclash.distinct.forall hunder' hunder heq hpass' hpass)

theorem Stores.get?_rocksKey (h : Stores db rows) {row : Row t} (hrow : row ∈ rows) :
    db.get? row.rocksKey = some row.rocksValue := by
  rw [SortedMap.get?_eq_some, h.entries]
  exact mem_map_of_mem hrow

/-- An update with an unsupported operation changes nothing. -/
theorem keyUpdateOk_unsupported (ht : t.StringKey) (h : Stores db rows)
    (hkey : updatesKey updateInfo = true)
    (hadds : ∀ row ∈ under rows key, row.passes conds = true →
      AddsOk updateInfo (row.base updateInfo)) (hsup : supported updateInfo = false) :
    KeyUpdateOk db rows key conds updateInfo ↔ ∀ row ∈ under rows key, row.meets conds = false := by
  rw [KeyUpdateOk, processUpdate_unsupported ht h hkey hadds hsup]
  dsimp only
  constructor
  · rintro ⟨hlen, -⟩ row hrow
    have hnil : matching rows key conds = [] := eq_nil_of_length_eq_zero hlen.symm
    rw [matching, filter_eq_nil_iff] at hnil
    simpa using hnil row hrow
  · intro hnone
    have hnil : matching rows key conds = [] := by
      rw [matching, filter_eq_nil_iff]
      intro row hrow
      simp [hnone row hrow]
    refine ⟨by rw [hnil]; rfl, rows, h, List.Perm.of_eq ?_⟩
    conv_lhs => rw [← map_id rows]
    apply map_congr_left
    intro row hrow
    rw [if_neg, id]
    rintro ⟨hunder, hmeets⟩
    rw [hnone row (mem_under.mpr ⟨hrow, hunder⟩)] at hmeets
    cases hmeets

end ISearch.RocksProcess
