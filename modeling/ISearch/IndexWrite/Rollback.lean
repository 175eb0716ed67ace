import ISearch.IndexWrite.Progress

/-!
# What a rollback undoes

A request that fails after it has reserved a version rolls back. The rollback deletes the postings
of the noted keys, whoever wrote them, and gives the version back. Union keys and queued deletions
stay, and the pinyin rows are looked for with a command context that is cleared by then, unless the
request stopped at a field of the same type that cannot be converted.
-/

namespace ISearch.IndexWrite

open List

variable {C : Type}

theorem FormatKey.mem_entries {keys : FormatKey} {k : Nat × String} :
    k ∈ keys.entries ↔ k ∈ keys := by
  have hle : k ∈ keys → k.1 ≤ (keys.map (·.1)).foldr max 0 := by
    intro hk
    induction keys with
    | nil => cases hk
    | cons k' keys ih =>
      rw [map_cons, foldr_cons]
      rcases mem_cons.mp hk with rfl | hk
      · exact Nat.le_max_left _ _
      · exact Nat.le_trans (ih hk) (Nat.le_max_right _ _)
  unfold FormatKey.entries
  simp only [mem_flatMap, mem_range, mem_filter, decide_eq_true_eq]
  constructor
  · rintro ⟨field, -, hk, -⟩
    exact hk
  · intro hk
    exact ⟨k.1, Nat.lt_succ_of_le (hle hk), hk, rfl⟩

/-! ## The snapshot -/

section UpdateRows

variable {α β : Type} [DecidableEq β] {key : α → β} {matched : α → Bool} {f : α → α}
  {rows rows' : List α}

theorem updateRows_eq_some (h : updateRows key matched f rows = some rows') :
    rows' = rows.map (fun r => if matched r then f r else r) ∧
      ((rows.filter matched).map fun r => key (f r)).Nodup := by
  unfold updateRows at h
  dsimp only at h
  split at h
  next hnodup =>
    cases h
    exact ⟨rfl, hnodup.1⟩
  · cases h

end UpdateRows

namespace Store

variable {s s' : Store C} {doc : Doc}

theorem updateSnapshot_eq_some {v n : Nat} {f : SnapshotRow C → SnapshotRow C}
    (h : s.updateSnapshot doc v f = some (s', n)) :
    ∃ rows, updateRows SnapshotRow.key (fun r => r.transVersion = v) f (s.snapshot doc) =
        some rows ∧
      s' = s.setSnapshot doc rows ∧
      n = ((s.snapshot doc).filter fun r => r.transVersion = v).length := by
  unfold updateSnapshot at h
  obtain ⟨rows, hrows, heq⟩ := Option.map_eq_some_iff.mp h
  cases heq
  exact ⟨rows, hrows, rfl, rfl⟩

@[simp] theorem snapshot_setSnapshot (rows : List (SnapshotRow C)) :
    (s.setSnapshot doc rows).snapshot doc = rows :=
  Function.update_self ..

@[simp] theorem setSnapshot_setSnapshot (rows rows' : List (SnapshotRow C)) :
    (s.setSnapshot doc rows).setSnapshot doc rows' = s.setSnapshot doc rows' := by
  simp [setSnapshot]

theorem setSnapshot_snapshot (rows : List (SnapshotRow C)) :
    (s.setSnapshot doc rows).snapshot = s.snapshot ↔ rows = s.snapshot doc := by
  constructor
  · intro h
    simpa [setSnapshot] using congrFun h doc
  · rintro rfl
    exact Function.update_eq_self doc s.snapshot

theorem getIndexData_congr (h : s'.docidIndex = s.docidIndex) (docVersion : Nat) :
    s'.getIndexData doc docVersion = s.getIndexData doc docVersion := by
  rw [getIndexData, getIndexData, h]

theorem registerInfo_ite (s : Store C) (p : Prop) [Decidable p] (items : List DeleteItem) :
    (if p then s.registerInfo items else s) =
      { s with pending := s.pending ++ if p then items else [] } := by
  split
  · rfl
  · rw [append_nil]

/-- A row after the update that reserves version `v`. -/
def reservedRow (v : Nat) (r : SnapshotRow C) : SnapshotRow C :=
  if r.transVersion = v - 1 then { r with transVersion := v } else r

/-- A row after the update that gives version `v` back. -/
def givenBackRow (v : Nat) (r : SnapshotRow C) : SnapshotRow C :=
  if r.transVersion = v then { r with transVersion := v - 1 } else r

theorem transVersion_reservedRow {v : Nat} (hv : v ≠ 0) (r : SnapshotRow C) :
    (reservedRow v r).transVersion ≠ v - 1 := by
  unfold reservedRow
  split
  · dsimp only
    omega
  next h => exact h

theorem transVersion_givenBackRow {v : Nat} (hv : v ≠ 0) (r : SnapshotRow C) :
    (givenBackRow v r).transVersion ≠ v := by
  unfold givenBackRow
  split
  · dsimp only
    omega
  next h => exact h

theorem givenBackRow_reservedRow {v : Nat} {r : SnapshotRow C} (hfree : r.transVersion ≠ v) :
    givenBackRow v (reservedRow v r) = r := by
  unfold givenBackRow reservedRow
  by_cases hmatch : r.transVersion = v - 1
  · rw [if_pos hmatch, if_pos rfl, ← hmatch]
  · rw [if_neg hmatch, if_neg hfree]

theorem filter_reservedRow {v : Nat} {rows : List (SnapshotRow C)}
    (hfree : ∀ r ∈ rows, r.transVersion ≠ v) :
    (rows.map (reservedRow v)).filter (fun r => r.transVersion = v) =
      (rows.filter fun r => r.transVersion = v - 1).map fun r => { r with transVersion := v } := by
  induction rows with
  | nil => rfl
  | cons r rows ih =>
    have hrest := ih fun r' hr' => hfree r' (mem_cons_of_mem r hr')
    have hr := hfree r mem_cons_self
    rw [map_cons]
    by_cases hmatch : r.transVersion = v - 1
    · have hrow : reservedRow v r = { r with transVersion := v } := if_pos hmatch
      rw [hrow, filter_cons_of_pos (by simp), hrest, filter_cons_of_pos (by simpa),
        map_cons]
    · have hrow : reservedRow v r = r := if_neg hmatch
      rw [hrow, filter_cons_of_neg (by simpa), hrest, filter_cons_of_neg (by simpa)]

theorem updateSnapshotVersion_eq_some {v n : Nat}
    (h : s.updateSnapshotVersion doc v = some (s', n)) :
    s' = s.setSnapshot doc ((s.snapshot doc).map (reservedRow v)) ∧
      (((s.snapshot doc).filter fun r => r.transVersion = v - 1).map fun r =>
        SnapshotRow.key { r with transVersion := v }).Nodup ∧
      n = ((s.snapshot doc).filter fun r => r.transVersion = v - 1).length := by
  obtain ⟨rows, hrows, rfl, hn⟩ := updateSnapshot_eq_some h
  obtain ⟨rfl, hnodup⟩ := updateRows_eq_some hrows
  refine ⟨?_, hnodup, hn⟩
  congr 1
  apply map_congr_left
  intro r _
  simp [reservedRow]

theorem updateSnapshotBack_eq_some {v n : Nat}
    (h : s.updateSnapshotBack doc v = some (s', n)) :
    s' = s.setSnapshot doc ((s.snapshot doc).map (givenBackRow v)) := by
  obtain ⟨rows, hrows, rfl, -⟩ := updateSnapshot_eq_some h
  obtain ⟨rfl, -⟩ := updateRows_eq_some hrows
  congr 1
  apply map_congr_left
  intro r _
  simp [givenBackRow]

/-- The rows of a reserved version can be given back. -/
theorem updateRows_back {rows : List (SnapshotRow C)} {v : Nat} (hv : v ≠ 0)
    (hnodup : ((rows.filter fun r => r.transVersion = v - 1).map fun r =>
      SnapshotRow.key { r with transVersion := v }).Nodup)
    (hfree : ∀ r ∈ rows, r.transVersion ≠ v) :
    updateRows SnapshotRow.key (fun r => r.transVersion = v)
      (fun r => { r with transVersion := v - 1 }) (rows.map (reservedRow v)) = some rows := by
  unfold updateRows
  dsimp only
  rw [filter_reservedRow hfree, map_map, if_pos]
  · have hback : (rows.map (reservedRow v)).map (givenBackRow v) = rows := by
      rw [map_map]
      have hself : ∀ r ∈ rows, (givenBackRow v ∘ reservedRow v) r = id r :=
        fun r hr => givenBackRow_reservedRow (hfree r hr)
      rw [map_congr_left hself, map_id]
    have hfun : (fun r : SnapshotRow C => if decide (r.transVersion = v) = true then
        { r with transVersion := v - 1 } else r) = givenBackRow v := by
      funext r
      simp [givenBackRow]
    rw [hfun, hback]
  · constructor
    · rw [List.Nodup, pairwise_map] at hnodup ⊢
      apply hnodup.imp
      intro r r' hne heq
      apply hne
      have hdoc : r.docVersion = r'.docVersion := congrArg Prod.fst heq
      simp [SnapshotRow.key, hdoc]
    · intro k hk hmem
      obtain ⟨r, -, rfl⟩ := mem_map.mp hk
      obtain ⟨r', hr', hkey⟩ := mem_map.mp hmem
      obtain ⟨r'', -, rfl⟩ := mem_map.mp hr'
      exact transVersion_reservedRow hv r'' (congrArg Prod.snd hkey)

end Store

namespace Manager

variable {t : AddRequest C} {v : Nat} {m : Manager C} {s : Store C}

/-- Nobody else's row can be taken for the one of version `v`. -/
def VersionFree (s : Store C) (doc : Doc) (v : Nat) : Prop :=
  if v = 1 then s.snapshot doc = [] else ∀ r ∈ s.snapshot doc, r.transVersion ≠ v

theorem nextVersion_ne_zero (s : Store C) (doc : Doc) : nextVersion s doc ≠ 0 := by
  unfold nextVersion
  split <;> omega

/-- A version that is reserved. -/
structure Reserved (s s' : Store C) (doc : Doc) (v : Nat) : Prop where
  ne_zero : v ≠ 0
  insert : v = 1 → s.insertSnapshotVersion doc 1 = some s'
  update : v ≠ 1 → ∃ n, s.updateSnapshotVersion doc v = some (s', n + 1)

theorem reserved_of_ok (h : (m.updateTransVersion t).1 = .ok) :
    (m.updateTransVersion t).2.1 = nextVersion m.store t.doc ∧
      Reserved m.store (m.updateTransVersion t).2.2 t.doc (nextVersion m.store t.doc) := by
  unfold updateTransVersion at h ⊢
  split at h
  · cases h
  next hget =>
    rw [if_neg hget]
    dsimp only at h ⊢
    by_cases hv : nextVersion m.store t.doc = 1
    · rw [if_neg (fun hne => hne hv)] at h ⊢
      split at h
      · cases h
      next store heq =>
        refine ⟨rfl, nextVersion_ne_zero _ _, fun _ => ?_, fun hne => absurd hv hne⟩
        rw [hv] at heq
        split at heq
        · cases heq
        · exact heq
    · rw [if_pos hv] at h ⊢
      split at h
      · cases h
      · cases h
      next store n heq =>
        refine ⟨rfl, nextVersion_ne_zero _ _, fun h1 => absurd h1 hv, fun _ => ⟨n, ?_⟩⟩
        split at heq
        · cases heq
        · exact heq

namespace Reserved

variable {s' : Store C} {doc : Doc} {v : Nat}

/-- Only the snapshot of the document changes. -/
theorem eq_setSnapshot (h : Reserved s s' doc v) : s' = s.setSnapshot doc (s'.snapshot doc) := by
  by_cases hv : v = 1
  · have hinsert := h.insert hv
    unfold Store.insertSnapshotVersion at hinsert
    split at hinsert
    · cases hinsert
    · cases hinsert
      simp [Store.setSnapshot]
  · obtain ⟨n, hupdate⟩ := h.update hv
    obtain ⟨rows, -, rfl, -⟩ := Store.updateSnapshot_eq_some hupdate
    simp [Store.setSnapshot]

end Reserved

/-- The version is given back as if nothing had happened exactly when the row is the only one of its
version. -/
theorem rollBackSnapshot_iff {s' : Store C} (h : Reserved s s' t.doc v)
    (hfault : t.faults.rollbackSnapshot = false) :
    (rollBackSnapshot t v s').snapshot = s.snapshot ↔ VersionFree s t.doc v := by
  have hs := h.eq_setSnapshot
  unfold rollBackSnapshot VersionFree
  rw [if_neg (by simp [hfault])]
  by_cases hv : v = 1
  · rw [if_pos hv, if_pos hv, Store.deleteSnapshotDtc, hs, Store.setSnapshot_setSnapshot,
      Store.setSnapshot_snapshot]
    exact eq_comm
  rw [if_neg hv, if_neg hv]
  obtain ⟨n, hupdate⟩ := h.update hv
  obtain ⟨rfl, hnodup, hn⟩ := Store.updateSnapshotVersion_eq_some hupdate
  constructor
  · -- a row that had the version before is given back as well
    intro hsame r hr htv
    have hrows := congrFun hsame t.doc
    split at hrows
    next hback =>
      rw [Store.snapshot_setSnapshot] at hrows
      obtain ⟨r₀, hr₀⟩ : ∃ r₀, r₀ ∈ (s.snapshot t.doc).filter fun r =>
          r.transVersion = v - 1 := exists_mem_of_length_pos (by omega)
      obtain ⟨hmem, htv₀⟩ := mem_filter.mp hr₀
      rw [← hrows] at hmem
      obtain ⟨r', -, rfl⟩ := mem_map.mp hmem
      exact Store.transVersion_reservedRow h.ne_zero r' (by simpa using htv₀)
    next s' n' hback =>
      obtain rfl := Store.updateSnapshotBack_eq_some hback
      rw [Store.snapshot_setSnapshot] at hrows
      rw [← hrows] at hr
      obtain ⟨r', -, rfl⟩ := mem_map.mp hr
      exact Store.transVersion_givenBackRow h.ne_zero r' htv
  · intro hfree
    have hback := Store.updateRows_back h.ne_zero hnodup hfree
    simp [Store.updateSnapshotBack, Store.updateSnapshot, hback, Store.setSnapshot_snapshot]

/-- The storage requests of the rollback succeed. -/
structure RollbackSucceeds (t : AddRequest C) : Prop where
  hanpin : ∀ field, t.faults.rollbackHanpin field = false
  keyword : ∀ k, t.faults.rollbackKeyword k = false
  snapshot : t.faults.rollbackSnapshot = false

/-- The rows that the rollback deletes for a noted key. -/
def rolledBack (t : AddRequest C) (v : Nat) (k : Nat × String) (row : KeywordRow) : Bool :=
  DeleteItem.selects { word := k.2, doc := t.doc, docVersion := v, field := k.1 } row

/-- The pinyin rows that the rollback deletes for a noted field. -/
def rolledBackHanpin (t : AddRequest C) (param : InsertParam) (field : Nat) (row : HanpinRow) :
    Bool :=
  row.appid = t.doc.appid && row.field = field && row.docId = param.docId &&
    row.docVersion = param.transVersion

theorem rolledBack_keywordRow (t : AddRequest C) (v : Nat) (k : Nat × String) :
    rolledBack t v k (keywordRow t v k.1 k.2) = true := by
  simp [rolledBack, DeleteItem.selects, keywordRow]

theorem rollBackKeywords_eq {keys : FormatKey} (h : ∀ k ∈ keys, t.faults.rollbackKeyword k = false)
    (s : Store C) : rollBackKeywords t v s keys =
      { s with keyword := fun row => s.keyword row && !keys.any (rolledBack t v · row) } := by
  induction keys generalizing s with
  | nil => simp [rollBackKeywords]
  | cons k keys ih =>
    have hcons : rollBackKeywords t v s (k :: keys) = rollBackKeywords t v
        (s.deleteIndex { word := k.2, doc := t.doc, docVersion := v, field := k.1 }) keys := by
      simp [rollBackKeywords, h k mem_cons_self]
    rw [hcons, ih fun k' hk' => h k' (mem_cons_of_mem k hk')]
    simp only [Store.deleteIndex, any_cons, Bool.not_or, Bool.and_assoc]
    rfl

theorem rollBackSelfIndex_eq (h : RollbackSucceeds t) (m : Manager C) (type : FieldType) :
    m.rollBackSelfIndex t type = { m with store := { m.store with
      hanpin := fun row => m.store.hanpin row &&
        !(m.intelligentKeys type).any (rolledBackHanpin t (m.cmdCont type) · row) } } := by
  unfold rollBackSelfIndex
  generalize m.intelligentKeys type = fields
  dsimp only
  congr 1
  generalize m.store = s
  induction fields generalizing s with
  | nil => simp
  | cons field fields ih =>
    rw [foldl_cons, if_neg (by simp [h.hanpin]), ih]
    simp only [Store.deleteIntelligent, rolledBackHanpin, any_cons, Bool.not_or,
      Bool.and_assoc]

theorem insertUnion_spec (s : Store C) (keys : List String) :
    ∃ keyword, insertUnion t v s keys = { s with keyword } ∧
      ∀ row, keyword row = true ↔ s.keyword row = true ∨
        ∃ key ∈ keys, t.faults.union key = false ∧ row = unionRow t v key := by
  induction keys generalizing s with
  | nil => exact ⟨s.keyword, rfl, by simp⟩
  | cons key keys ih =>
    rw [insertUnion]
    split
    next hskip =>
      obtain ⟨keyword, heq, hiff⟩ := ih s
      refine ⟨keyword, heq, fun row => (hiff row).trans ?_⟩
      constructor
      · rintro (hrow | ⟨key', hkey', hrow⟩)
        · exact .inl hrow
        · exact .inr ⟨key', mem_cons_of_mem key hkey', hrow⟩
      · rintro (hrow | ⟨key', hkey', hfault, rfl⟩)
        · exact .inl hrow
        · rcases mem_cons.mp hkey' with rfl | hkey'
          · exact .inl (by simpa [hfault] using hskip)
          · exact .inr ⟨key', hkey', hfault, rfl⟩
    next hinsert =>
      obtain ⟨keyword, heq, hiff⟩ := ih (s.insertKeyword (unionRow t v key))
      refine ⟨keyword, heq, fun row => (hiff row).trans ?_⟩
      have hfault : t.faults.union key = false := by
        simp only [Bool.or_eq_true, not_or] at hinsert
        exact Bool.eq_false_iff.mpr hinsert.1
      by_cases hself : row = unionRow t v key
      · subst hself
        simp [Store.insertKeyword, hfault]
      · simp [Store.insertKeyword, hself]

/-! ## A request that fails -/

/-- The union keys that are inserted before the request fails. -/
def unionWritten (t : AddRequest C) (unionFields : List (List Nat)) (p : List Field × Stop) :
    List String :=
  if p.2 = .done then
    (unionKeys (notedKeys p).entries unionFields).filter fun key => t.faults.union key = false
  else []

/-- The deletions that are queued before the request fails. -/
def queued (t : AddRequest C) (v : Nat) (s : Store C) (p : List Field × Stop) : List DeleteItem :=
  if p.2 = .done ∧ v ≠ 1 ∧ t.faults.getIndexData = false then
    deleteItems t.doc (v - 1) (s.getIndexData t.doc (v - 1))
  else []

/-- What the rollback starts from. -/
structure Failed (t : AddRequest C) (v : Nat) (unionFields : List (List Nat))
    (p : List Field × Stop) (m m' : Manager C) : Prop where
  snapshot : m'.store.snapshot = m.store.snapshot
  docidIndex : m'.store.docidIndex = m.store.docidIndex
  pending : m'.store.pending = m.store.pending ++ queued t v m.store p
  formatKey : m'.formatKey = notedKeys p
  keeps : ∀ {row}, m.store.keyword row = true → m'.store.keyword row = true
  union : ∀ {key}, key ∈ unionWritten t unionFields p → m'.store.keyword (unionRow t v key) = true
  only : ∀ {row}, m'.store.keyword row = true → m.store.keyword row = true ∨
    (∃ k ∈ notedKeys p, row = keywordRow t v k.1 k.2) ∨
      ∃ key ∈ unionWritten t unionFields p, row = unionRow t v key
  hanpin : ∀ {row}, m'.store.hanpin row = true ↔
    m.store.hanpin row = true ∨ row ∈ hanpinWritten t v p
  intelligentKeys : ∀ type, m'.intelligentKeys type = intelligentNoted type p
  cmdCont : ∀ type, intelligentNoted type p ≠ [] → m'.cmdCont type = p.2.insertParam t v type

/-- The loop stopped. -/
theorem failed_of_stop {m' : Manager C} {r : RetCode × Manager C} {p : List Field × Stop}
    {unionFields : List (List Nat)} (h : Indexed t v m' r p) (hstore : m'.store = m.store)
    (hkeys : ∀ type, m'.intelligentKeys type = []) (hformat : m'.formatKey = [])
    (hstop : p.2 ≠ .done) : Failed t v unionFields p m r.2 where
  snapshot := by rw [h.wrote.snapshot, hstore]
  docidIndex := by rw [h.wrote.docidIndex, hstore]
  pending := by rw [h.wrote.pending, hstore, queued, if_neg fun hq => hstop hq.1, append_nil]
  formatKey := by rw [h.wrote.formatKey, hformat, nil_append]
  keeps hrow := h.wrote.keeps (by rwa [hstore])
  union hkey := by
    rw [unionWritten, if_neg hstop] at hkey
    cases hkey
  only hrow := by
    rcases h.wrote.only hrow with hrow | hnoted
    · exact .inl (by rwa [← hstore])
    · exact .inr (.inl hnoted)
  hanpin := by
    intro row
    rw [h.wrote.hanpin, hstore]
  intelligentKeys type := by rw [h.intelligentKeys, hkeys, nil_append]
  cmdCont type hne := h.cmdCont type (.inr hne)

/-- The final update of the snapshot failed. -/
theorem updateDocVersion_failed (h : (m.updateDocVersion t v).1 ≠ .ok) :
    (m.updateDocVersion t v).2 = { m with store := { m.store with
      pending := m.store.pending ++ if v ≠ 1 ∧ t.faults.getIndexData = false then
        deleteItems t.doc (v - 1) (m.store.getIndexData t.doc (v - 1)) else [] } } := by
  unfold updateDocVersion at h ⊢
  rw [Store.registerInfo_ite] at h ⊢
  dsimp only at h ⊢
  split at h
  · rfl
  · rfl
  · exact absurd rfl h

theorem failed_of_publish {m' : Manager C} {r : RetCode × Manager C} {p : List Field × Stop}
    {unionFields : List (List Nat)} (h : Indexed t v m' r p) (hstore : m'.store = m.store)
    (hkeys : ∀ type, m'.intelligentKeys type = []) (hformat : m'.formatKey = [])
    (hdone : p.2 = .done)
    (hfail : ((r.2.handleUnifiedIndex t v unionFields).updateDocVersion t v).1 ≠ .ok) :
    Failed t v unionFields p m
      ((r.2.handleUnifiedIndex t v unionFields).updateDocVersion t v).2 := by
  have hnoted : r.2.formatKey = notedKeys p := by
    rw [h.wrote.formatKey, hformat, nil_append]
  have hwritten (key : String) : key ∈ unionWritten t unionFields p ↔
      key ∈ unionKeys r.2.formatKey.entries unionFields ∧ t.faults.union key = false := by
    rw [unionWritten, if_pos hdone, hnoted, mem_filter, decide_eq_true_eq]
  obtain ⟨keyword, hunion, hkeyword⟩ := insertUnion_spec (t := t) (v := v) r.2.store
    (unionKeys r.2.formatKey.entries unionFields)
  rw [updateDocVersion_failed hfail]
  unfold handleUnifiedIndex
  rw [hunion]
  have hindex : r.2.store.docidIndex = m.store.docidIndex :=
    h.wrote.docidIndex.trans (congrArg _ hstore)
  refine ⟨?_, ?_, ?_, hnoted, ?_, ?_, ?_, ?_, ?_, ?_⟩
  · exact h.wrote.snapshot.trans (congrArg _ hstore)
  · exact hindex
  · have hpending : r.2.store.pending = m.store.pending := by rw [h.wrote.pending, hstore]
    have hdata : ({ r.2.store with keyword } : Store C).getIndexData t.doc (v - 1) =
        m.store.getIndexData t.doc (v - 1) := Store.getIndexData_congr hindex (v - 1)
    dsimp only
    rw [queued, hdata, hpending]
    simp [hdone]
  · intro row hrow
    exact (hkeyword row).mpr (.inl (h.wrote.keeps (by rwa [hstore])))
  · intro key hkey
    obtain ⟨hmem, hfault⟩ := (hwritten key).mp hkey
    exact (hkeyword _).mpr (.inr ⟨key, hmem, hfault, rfl⟩)
  · intro row hrow
    rcases (hkeyword row).mp hrow with hrow | ⟨key, hmem, hfault, rfl⟩
    · rcases h.wrote.only hrow with hrow | hmem
      · exact .inl (by rwa [← hstore])
      · exact .inr (.inl hmem)
    · exact .inr (.inr ⟨key, (hwritten key).mpr ⟨hmem, hfault⟩, rfl⟩)
  · intro row
    exact h.wrote.hanpin.trans (by rw [hstore])
  · intro type
    exact (h.intelligentKeys type).trans (by rw [hkeys, nil_append])
  · exact fun type hne => h.cmdCont type (.inr hne)

theorem handleFields_failed {unionFields : List (List Nat)}
    (h : (m.handleFields t v unionFields).1 ≠ .ok) :
    ∃ m', (m.handleFields t v unionFields).2 = m'.rollBackIndex t v ∧
      Failed t v unionFields (progress t v m.store.keyword t.fields) m m' := by
  let m₀ : Manager C := { m with intelligentKeys := fun _ => [], formatKey := [] }
  have hindexed := indexFields_spec (t := t) (v := v) m₀ t.fields
  have heq : m.handleFields t v unionFields =
      let r := andThen (m₀.indexFields t v t.fields) fun m =>
        (m.handleUnifiedIndex t v unionFields).updateDocVersion t v
      if r.1 = .ok then (r.1, r.2) else (r.1, r.2.rollBackIndex t v) := rfl
  by_cases hret : (m₀.indexFields t v t.fields).1 = .ok
  · rw [heq, andThen_of_eq hret] at h ⊢
    have hdone : (progress t v m.store.keyword t.fields).2 = .done :=
      Stop.code_eq_ok.mp (hindexed.ret.symm.trans hret)
    dsimp only at h ⊢
    split at h
    next hok => exact absurd hok h
    next hfail =>
      rw [if_neg hfail]
      exact ⟨_, rfl, failed_of_publish hindexed rfl (fun _ => rfl) rfl hdone hfail⟩
  · rw [heq, andThen_of_ne hret]
    dsimp only
    rw [if_neg hret]
    refine ⟨_, rfl, failed_of_stop hindexed rfl (fun _ => rfl) rfl fun hdone => hret ?_⟩
    exact hindexed.ret.trans (Stop.code_eq_ok.mpr hdone)

/-- What a failed request must leave as it was. -/
structure Same (s s' : Store C) : Prop where
  snapshot : s'.snapshot = s.snapshot
  keyword : s'.keyword = s.keyword
  hanpin : s'.hanpin = s.hanpin
  pending : ∀ item, item ∈ s'.pending ↔ item ∈ s.pending

/-- The pinyin rows that the rollback deletes when the loop stopped at `p`. -/
def HanpinDeleted (t : AddRequest C) (v : Nat) (p : List Field × Stop) (row : HanpinRow) : Prop :=
  ∃ type, (type = .string ∨ type = .text) ∧ ∃ field ∈ intelligentNoted type p,
    rolledBackHanpin t (p.2.insertParam t v type) field row = true

/-- The rollback undoes all that a request did which stopped at `p`, and no more. -/
structure Undone (t : AddRequest C) (v : Nat) (unionFields : List (List Nat)) (s : Store C)
    (p : List Field × Stop) : Prop where
  /-- No other snapshot row has the version. -/
  version : VersionFree s t.doc v
  /-- No posting of the version was there under a noted key. -/
  keyword : ∀ k ∈ notedKeys p, ∀ row, s.keyword row = true → rolledBack t v k row = false
  /-- Every union key had its posting, or is among the noted keys. -/
  union : ∀ key ∈ unionWritten t unionFields p,
    s.keyword (unionRow t v key) = true ∨ ∃ k ∈ notedKeys p, rolledBack t v k (unionRow t v key) = true
  /-- No pinyin row that was there is deleted. -/
  hanpinKept : ∀ row, s.hanpin row = true → ¬ HanpinDeleted t v p row
  /-- Every pinyin row that was written was there, or is deleted. -/
  hanpinUndone : ∀ row ∈ hanpinWritten t v p, s.hanpin row = true ∨ HanpinDeleted t v p row
  /-- Every deletion that was queued was pending already. -/
  pending : ∀ item ∈ queued t v s p, item ∈ s.pending

theorem any_rolledBackHanpin {p : List Field × Stop} {unionFields : List (List Nat)}
    {m' : Manager C} (h : Failed t v unionFields p m m') (type : FieldType) (row : HanpinRow) :
    (m'.intelligentKeys type).any (rolledBackHanpin t (m'.cmdCont type) · row) = true ↔
      ∃ field ∈ intelligentNoted type p,
        rolledBackHanpin t (p.2.insertParam t v type) field row = true := by
  rw [h.intelligentKeys]
  by_cases hnil : intelligentNoted type p = []
  · simp [hnil]
  · rw [h.cmdCont type hnil, any_eq_true]

theorem rollBackSnapshot_eq (s : Store C) :
    rollBackSnapshot t v s = { s with snapshot := (rollBackSnapshot t v s).snapshot } := by
  unfold rollBackSnapshot
  split
  · rfl
  split
  · rfl
  · cases hback : s.updateSnapshotBack t.doc v with
    | none => rfl
    | some r =>
      obtain ⟨s', n⟩ := r
      obtain rfl := Store.updateSnapshotBack_eq_some hback
      rfl

theorem snapshot_rollBackSnapshot_congr {s' : Store C} (h : s'.snapshot = s.snapshot) :
    (rollBackSnapshot t v s').snapshot = (rollBackSnapshot t v s).snapshot := by
  unfold rollBackSnapshot
  split
  · exact h
  split
  · simp [Store.deleteSnapshotDtc, Store.setSnapshot, h]
  · unfold Store.updateSnapshotBack Store.updateSnapshot
    dsimp only
    rw [h]
    cases updateRows SnapshotRow.key (fun r => decide (r.transVersion = v))
        (fun r : SnapshotRow C => { r with transVersion := v - 1 }) (s.snapshot t.doc) with
    | none => exact h
    | some rows => simp [Store.setSnapshot, h]

/-- The store after the rollback. -/
theorem rollBackIndex_spec {p : List Field × Stop} {unionFields : List (List Nat)} {m' : Manager C}
    (h : Failed t v unionFields p m m') (hroll : RollbackSucceeds t) :
    (m'.rollBackIndex t v).store.snapshot = (rollBackSnapshot t v m.store).snapshot ∧
      (m'.rollBackIndex t v).store.docidIndex = m.store.docidIndex ∧
      (∀ row, (m'.rollBackIndex t v).store.keyword row = true ↔
        m'.store.keyword row = true ∧ ∀ k ∈ notedKeys p, rolledBack t v k row = false) ∧
      (∀ row, (m'.rollBackIndex t v).store.hanpin row = true ↔
        (m.store.hanpin row = true ∨ row ∈ hanpinWritten t v p) ∧ ¬ HanpinDeleted t v p row) ∧
      (m'.rollBackIndex t v).store.pending = m.store.pending ++ queued t v m.store p := by
  unfold rollBackIndex
  rw [rollBackSelfIndex_eq hroll m' .string, rollBackSelfIndex_eq hroll]
  dsimp only
  rw [rollBackKeywords_eq fun k _ => hroll.keyword k, rollBackSnapshot_eq]
  dsimp only
  refine ⟨?_, h.docidIndex, ?_, ?_, h.pending⟩
  · exact snapshot_rollBackSnapshot_congr h.snapshot
  · intro row
    rw [h.formatKey, Bool.and_eq_true, Bool.not_eq_true', any_eq_false]
    simp only [FormatKey.mem_entries, Bool.not_eq_true]
  · intro row
    have hstring := any_rolledBackHanpin h .string row
    have htext := any_rolledBackHanpin h .text row
    rw [HanpinDeleted, exists_eq_or_imp, exists_eq_left, ← hstring, ← htext, Bool.and_eq_true,
      Bool.and_eq_true, h.hanpin, Bool.not_eq_true', Bool.not_eq_true', not_or, and_assoc,
      Bool.not_eq_true, Bool.not_eq_true]

/-- A failed request leaves the store as it was exactly when the rollback undoes what it did. -/
theorem same_iff_undone {unionFields : List (List Nat)} {p : List Field × Stop} {s : Store C}
    {m' : Manager C} (hreserved : Reserved s m.store t.doc v) (h : Failed t v unionFields p m m')
    (hroll : RollbackSucceeds t) :
    Same s (m'.rollBackIndex t v).store ↔ Undone t v unionFields s p := by
  obtain ⟨hsnapshot, -, hkeyword, hhanpin, hpending⟩ := rollBackIndex_spec h hroll
  have hstore := hreserved.eq_setSnapshot
  have hkeyword₀ : m.store.keyword = s.keyword := (congrArg Store.keyword hstore).trans rfl
  have hhanpin₀ : m.store.hanpin = s.hanpin := (congrArg Store.hanpin hstore).trans rfl
  have hpending₀ : m.store.pending = s.pending := (congrArg Store.pending hstore).trans rfl
  have hqueued : queued t v m.store p = queued t v s p := by
    have hindex : m.store.docidIndex = s.docidIndex := (congrArg Store.docidIndex hstore).trans rfl
    rw [queued, queued, Store.getIndexData_congr hindex]
  rw [hhanpin₀] at hhanpin
  rw [hpending₀, hqueued] at hpending
  have hversion := rollBackSnapshot_iff hreserved hroll.snapshot
  constructor
  · intro hsame
    rw [hsame.keyword] at hkeyword
    rw [hsame.hanpin] at hhanpin
    refine ⟨?_, ?_, ?_, ?_, ?_, ?_⟩
    · exact hversion.mp (hsnapshot.symm.trans hsame.snapshot)
    · intro k hk row hrow
      exact ((hkeyword row).mp hrow).2 k hk
    · intro key hkey
      by_contra hlost
      rw [not_or, not_exists] at hlost
      refine hlost.1 ((hkeyword _).mpr ⟨h.union hkey, fun k hk => ?_⟩)
      exact Bool.eq_false_iff.mpr fun hback => hlost.2 k ⟨hk, hback⟩
    · intro row hrow
      exact ((hhanpin row).mp hrow).2
    · intro row hrow
      by_contra hlost
      rw [not_or] at hlost
      exact hlost.1 ((hhanpin row).mpr ⟨.inr hrow, hlost.2⟩)
    · intro item hitem
      rw [← hsame.pending, hpending]
      exact mem_append_right _ hitem
  · intro hundone
    refine ⟨?_, ?_, ?_, ?_⟩
    · exact hsnapshot.trans (hversion.mpr hundone.version)
    · funext row
      rw [Bool.eq_iff_iff, hkeyword]
      constructor
      · rintro ⟨hrow, hkept⟩
        rcases h.only hrow with hrow | ⟨k, hk, rfl⟩ | ⟨key, hkey, rfl⟩
        · rwa [← hkeyword₀]
        · have hback := hkept k hk
          rw [rolledBack_keywordRow] at hback
          cases hback
        · rcases hundone.union key hkey with hrow | ⟨k, hk, hback⟩
          · exact hrow
          · rw [hkept k hk] at hback
            cases hback
      · intro hrow
        exact ⟨h.keeps (by rwa [hkeyword₀]), fun k hk => hundone.keyword k hk row hrow⟩
    · funext row
      rw [Bool.eq_iff_iff, hhanpin]
      constructor
      · rintro ⟨hrow | hrow, hkept⟩
        · exact hrow
        · exact (hundone.hanpinUndone row hrow).resolve_right hkept
      · intro hrow
        exact ⟨.inl hrow, hundone.hanpinKept row hrow⟩
    · intro item
      rw [hpending, mem_append]
      exact ⟨fun hitem => hitem.elim id (hundone.pending item), .inl⟩

/-- A request that fails after it has reserved its version leaves the store as it was exactly when
its rollback undoes what it did. -/
theorem handleAdd_same_iff (m : Manager C) (t : AddRequest C) (unionFields : List (List Nat))
    (hreserved : (m.updateTransVersion t).1 = .ok)
    (hfails : (m.handleAdd t unionFields).1 ≠ .ok) (hroll : RollbackSucceeds t) :
    Same m.store (m.handleAdd t unionFields).2.store ↔
      Undone t (nextVersion m.store t.doc) unionFields m.store
        (progress t (nextVersion m.store t.doc) m.store.keyword t.fields) := by
  obtain ⟨hv, hres⟩ := reserved_of_ok hreserved
  have heq : m.handleAdd t unionFields = { m with store := (m.updateTransVersion t).2.2
      }.handleFields t (nextVersion m.store t.doc) unionFields := by
    unfold handleAdd
    split
    next v store hstore =>
      rw [hstore] at hv ⊢
      rw [← hv]
    next ret v store hne hstore =>
      rw [hstore] at hreserved
      exact absurd hreserved hne
  rw [heq] at hfails ⊢
  obtain ⟨m', hm', hfailed⟩ := handleFields_failed hfails
  rw [hm']
  have hkeyword : (m.updateTransVersion t).2.2.keyword = m.store.keyword :=
    (congrArg Store.keyword hres.eq_setSnapshot).trans rfl
  rw [← hkeyword]
  exact same_iff_undone hres hfailed hroll

/-! ### Two failing requests -/

def noFaults : Faults where
  getSnapshot := false
  reserve := false
  getIndexData := false
  publish := false
  writeIndex := false
  union _ := false
  rollbackHanpin _ := false
  rollbackKeyword _ := false
  rollbackSnapshot := false

theorem rollbackSucceeds_noFaults (doc : Doc) (fields : List Field) (content : C) :
    RollbackSucceeds { doc, fields, content, faults := noFaults } :=
  ⟨fun _ => rfl, fun _ => rfl, rfl⟩

def emptyStore : Store C where
  snapshot _ := []
  docidIndex _ := []
  keyword _ := false
  hanpin _ := false
  pending := []

def idle (store : Store C) : Manager C where
  store
  cmdCont _ := {}
  intelligentKeys _ := []
  formatKey := []

/-- A text of which the second key word cannot be inserted. -/
def textField : Field where
  fieldId := 2
  fieldType := .text
  indexed := true
  value := "new york"
  converts := true
  isReady := true
  generateError := none
  intelligent := []
  words := [⟨"new", false⟩, ⟨"york", true⟩]

/-- A string with a pinyin row. -/
def nameField : Field where
  fieldId := 3
  fieldType := .string
  indexed := true
  value := "name"
  converts := true
  isReady := true
  generateError := none
  intelligent := [false]
  words := [⟨"name", false⟩]

def addText : AddRequest String where
  doc := ⟨10, "a"⟩
  fields := [textField]
  content := ""
  faults := noFaults

def addName : AddRequest String where
  doc := ⟨10, "a"⟩
  fields := [nameField, textField]
  content := ""
  faults := noFaults

theorem undone_addText : Undone addText 1 [] emptyStore
    (progress addText 1 (fun _ => false) addText.fields) where
  version := rfl
  keyword _ _ _ h := Bool.noConfusion h
  union key hkey := absurd hkey (by decide +revert)
  hanpinKept _ h := Bool.noConfusion h
  hanpinUndone row hrow := absurd hrow (by decide +revert)
  pending item hitem := absurd hitem (by decide +revert)

theorem handleAdd_same_addText :
    ((idle emptyStore).updateTransVersion addText).1 = .ok ∧
      ((idle emptyStore).handleAdd addText []).1 = .errorInsertIndexDtc ∧
      Same emptyStore ((idle emptyStore).handleAdd addText []).2.store := by
  have hreserved : ((idle emptyStore).updateTransVersion addText).1 = .ok := by decide
  have hfails : ((idle emptyStore).handleAdd addText []).1 = .errorInsertIndexDtc := by decide
  refine ⟨hreserved, hfails, ?_⟩
  have hiff := handleAdd_same_iff (idle emptyStore) addText [] hreserved (by rw [hfails]; decide)
    (rollbackSucceeds_noFaults _ _ _)
  exact hiff.mpr undone_addText

/-- The pinyin row of the first field is left when the second field fails. -/
theorem handleAdd_addName_not_same :
    ((idle emptyStore).updateTransVersion addName).1 = .ok ∧
      ((idle emptyStore).handleAdd addName []).1 ≠ .ok ∧ RollbackSucceeds addName ∧
      ¬ Same emptyStore ((idle emptyStore).handleAdd addName []).2.store := by
  refine ⟨by decide, by decide, rollbackSucceeds_noFaults _ _ _, ?_⟩
  intro hsame
  have hrow : ((idle emptyStore).handleAdd addName []).2.store.hanpin
      (hanpinRow addName 1 nameField) = true := by decide
  rw [hsame.hanpin] at hrow
  cases hrow

end Manager

end ISearch.IndexWrite
