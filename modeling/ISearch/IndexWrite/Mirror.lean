import ISearch.IndexWrite.Version
import ISearch.Lib.Run

/-!
# The index and the acknowledged content

Requests are handled one at a time, and the queued deletions are carried out between them. The
postings of the version that the snapshot of a document names are those of the last request that was
acknowledged, under conditions on each request that say what goes wrong without them: union rows are
not in the record from which deletions are queued, versions start again at 1 after a delete although
deletions of that version may be queued, and the deletions are queued before the request that they
depend on.
-/

namespace ISearch.IndexWrite

open Function

variable {C : Type}

/-! ## Requests -/

/-- The keys of all fields. -/
def AddRequest.keys (t : AddRequest C) : FormatKey := t.fields.flatMap Field.keys

def AddRequest.unionKeys (t : AddRequest C) (unionFields : List (List Nat)) : List String :=
  Manager.unionKeys t.keys.entries unionFields

/-- The postings that a request generates. -/
def AddRequest.rows (t : AddRequest C) (v : Nat) (unionFields : List (List Nat)) :
    List KeywordRow :=
  t.keys.map (fun k => Manager.keywordRow t v k.1 k.2) ++
    (t.unionKeys unionFields).map (Manager.unionRow t v)

namespace Manager

variable {t : AddRequest C} {m : Manager C} {n v : Nat} {unionFields : List (List Nat)}

theorem notedKeys_of_done {present : KeywordRow → Bool}
    (h : (progress t v present t.fields).2 = .done) :
    notedKeys (progress t v present t.fields) = t.keys := by
  rw [notedKeys, progress_of_done t v h, h, AddRequest.keys]
  exact List.append_nil _

/-- The effect of a request that is acknowledged, after the version is reserved. -/
structure Published (t : AddRequest C) (v : Nat) (unionFields : List (List Nat)) (s s' : Store C) :
    Prop where
  snapshot : SnapshotAt s' t.doc v v
  other : ∀ doc ≠ t.doc, s'.snapshot doc = s.snapshot doc
  pending : s'.pending = s.pending ++ queued t v s (progress t v s.keyword t.fields)
  keyword : ∀ row, s'.keyword row = true ↔ s.keyword row = true ∨
    (∃ k ∈ t.keys, row = keywordRow t v k.1 k.2) ∨
      ∃ key ∈ t.unionKeys unionFields, t.faults.union key = false ∧ row = unionRow t v key

theorem writeIndex_eq (s : Store C) (keys : FormatKey) :
    ∃ docidIndex, (if t.faults.writeIndex then s
      else if v ≠ 1 then s.updateDocidIndexDtc t.doc keys v
      else s.insertDocidIndexDtc t.doc keys v) = { s with docidIndex } := by
  split
  · exact ⟨_, rfl⟩
  split
  · unfold Store.updateDocidIndexDtc
    split
    · exact ⟨_, rfl⟩
    · exact ⟨_, rfl⟩
  · unfold Store.insertDocidIndexDtc
    split
    · exact ⟨_, rfl⟩
    · exact ⟨_, rfl⟩

/-- The final update of the snapshot publishes the version. -/
theorem updateDocVersion_ok (h : SnapshotAt m.store t.doc n v) (hlt : n < v)
    (hpublish : t.faults.publish = false) :
    (m.updateDocVersion t v).1 = .ok ∧ ∃ rows docidIndex, SnapshotAt
        (m.store.setSnapshot t.doc rows) t.doc v v ∧
      (m.updateDocVersion t v).2.store = { m.store.setSnapshot t.doc rows with
        docidIndex
        pending := m.store.pending ++ if v ≠ 1 ∧ t.faults.getIndexData = false then
          deleteItems t.doc (v - 1) (m.store.getIndexData t.doc (v - 1)) else [] } := by
  unfold updateDocVersion
  rw [Store.registerInfo_ite]
  dsimp only
  generalize (m.store.pending ++ if v ≠ 1 ∧ t.faults.getIndexData = false then
    deleteItems t.doc (v - 1) (m.store.getIndexData t.doc (v - 1)) else []) = pending
  have hat : SnapshotAt { m.store with pending } t.doc n v := h.congr rfl
  obtain ⟨rows, hupdate, hat'⟩ := hat.publish hlt t.content
  rw [hpublish, if_neg Bool.false_ne_true, hupdate]
  obtain ⟨docidIndex, hindex⟩ := writeIndex_eq (t := t) (v := v)
    ({ m.store with pending }.setSnapshot t.doc rows) m.formatKey
  exact ⟨rfl, rows, docidIndex, hat'.congr rfl, hindex⟩

theorem updateDocVersion_ne (hpublish : t.faults.publish = true) :
    (m.updateDocVersion t v).1 ≠ .ok := by
  unfold updateDocVersion
  dsimp only
  rw [if_pos hpublish]
  exact RetCode.noConfusion

/-- What `handleFields` starts from. -/
def start (m : Manager C) : Manager C := { m with intelligentKeys := fun _ => [], formatKey := [] }

theorem handleFields_eq (m : Manager C) : m.handleFields t v unionFields =
    let r := andThen (m.start.indexFields t v t.fields) fun m =>
      (m.handleUnifiedIndex t v unionFields).updateDocVersion t v
    if r.1 = .ok then (r.1, r.2) else (r.1, r.2.rollBackIndex t v) :=
  rfl

theorem indexFields_ok_iff (m : Manager C) : (m.start.indexFields t v t.fields).1 = .ok ↔
    (progress t v m.store.keyword t.fields).2 = .done := by
  rw [(indexFields_spec (t := t) (v := v) m.start t.fields).ret]
  exact Stop.code_eq_ok

theorem handleFields_ne (h : ¬ ((progress t v m.store.keyword t.fields).2 = .done ∧
    t.faults.publish = false)) : (m.handleFields t v unionFields).1 ≠ .ok := by
  rw [handleFields_eq]
  dsimp only
  by_cases hdone : (progress t v m.store.keyword t.fields).2 = .done
  · have hpublish : t.faults.publish = true := by simpa [hdone] using h
    have hne : ∀ m' : Manager C, (m'.updateDocVersion t v).1 ≠ .ok := fun _ =>
      updateDocVersion_ne hpublish
    rw [andThen_of_eq ((indexFields_ok_iff m).mpr hdone), if_neg (hne _)]
    exact hne _
  · have hne := mt (indexFields_ok_iff m).mp hdone
    rw [andThen_of_ne hne, if_neg hne]
    exact hne

theorem handleFields_published (h : SnapshotAt m.store t.doc n v) (hlt : n < v)
    (hdone : (progress t v m.store.keyword t.fields).2 = .done)
    (hpublish : t.faults.publish = false) :
    (m.handleFields t v unionFields).1 = .ok ∧
      Published t v unionFields m.store (m.handleFields t v unionFields).2.store := by
  obtain ⟨-, hwrote, hwords, -, -⟩ := indexFields_spec (t := t) (v := v) m.start t.fields
  rw [handleFields_eq]
  dsimp only
  rw [andThen_of_eq ((indexFields_ok_iff m).mpr hdone)]
  generalize (m.start.indexFields t v t.fields).2 = m₁ at hwrote hwords ⊢
  have hkeys := notedKeys_of_done hdone
  have hformat : m₁.formatKey = t.keys := by
    rw [hwrote.formatKey, ← hkeys]
    rfl
  obtain ⟨keyword, hunion, hkeyword⟩ := insertUnion_spec (t := t) (v := v) m₁.store
    (t.unionKeys unionFields)
  have hunified : (m₁.handleUnifiedIndex t v unionFields).store = { m₁.store with keyword } := by
    rw [← hunion, handleUnifiedIndex, hformat]
    rfl
  have hat : SnapshotAt (m₁.handleUnifiedIndex t v unionFields).store t.doc n v := by
    rw [hunified]
    exact h.congr (congrFun hwrote.snapshot t.doc)
  obtain ⟨hok, rows, docidIndex, hat', hstore⟩ := updateDocVersion_ok hat hlt hpublish
  rw [if_pos hok, hstore, hunified]
  rw [hunified] at hat'
  refine ⟨hok, hat'.congr rfl, ?_, ?_, ?_⟩
  · intro doc hne
    have hsnapshot : m₁.store.snapshot doc = m.store.snapshot doc :=
      congrFun hwrote.snapshot doc
    simp [Store.setSnapshot, hne, hsnapshot]
  · have hindex : m₁.store.docidIndex = m.store.docidIndex := hwrote.docidIndex
    have hpending : m₁.store.pending = m.store.pending := hwrote.pending
    rw [queued, ← Store.getIndexData_congr hindex]
    simp [hdone, hpending, Store.getIndexData]
  · intro row
    refine (hkeyword row).trans ?_
    rw [← or_assoc]
    apply or_congr_left
    constructor
    · intro hrow
      rcases hwrote.only hrow with hrow | hnoted
      · exact .inl hrow
      · exact .inr (hkeys ▸ hnoted)
    · rintro (hrow | ⟨k, hk, rfl⟩)
      · exact hwrote.keeps hrow
      · apply hwords
        have hall : (progress t v m.start.store.keyword t.fields).1 = t.fields :=
          progress_of_done t v hdone
        rw [hall]
        exact hk

/-- The effect of a request that fails, after the version is reserved. -/
structure RolledBack (t : AddRequest C) (v n : Nat) (unionFields : List (List Nat))
    (s s' : Store C) (p : List Field × Stop) : Prop where
  snapshot : ∃ tv, SnapshotAt s' t.doc n tv
  other : ∀ doc ≠ t.doc, s'.snapshot doc = s.snapshot doc
  pending : s'.pending = s.pending ++ queued t v s p
  only : ∀ {row}, s'.keyword row = true →
    (s.keyword row = true ∨ ∃ key ∈ unionWritten t unionFields p, row = unionRow t v key) ∧
      ∀ k ∈ notedKeys p, rolledBack t v k row = false
  keeps : ∀ {row}, s.keyword row = true → row.doc ≠ t.doc ∨ row.docVersion ≠ v →
    s'.keyword row = true

theorem rollBackSelfIndex_hanpin (m : Manager C) (type : FieldType) :
    ∃ hanpin, m.rollBackSelfIndex t type = { m with store := { m.store with hanpin } } := by
  unfold rollBackSelfIndex
  dsimp only
  generalize m.intelligentKeys type = fields
  generalize hs : m.store = s
  have hfold : ∃ hanpin, fields.foldl (fun s field =>
      if t.faults.rollbackHanpin field then s else s.deleteIntelligent t.doc.appid field
        (m.cmdCont type).docId (m.cmdCont type).transVersion) s = { s with hanpin } := by
    clear hs
    induction fields generalizing s with
    | nil => exact ⟨s.hanpin, rfl⟩
    | cons field fields ih =>
      rw [List.foldl_cons]
      split
      · exact ih s
      · exact ih _
  obtain ⟨hanpin, heq⟩ := hfold
  exact ⟨hanpin, by rw [heq]⟩

theorem rollBackIndex_store (m : Manager C)
    (h : ∀ k ∈ m.formatKey, t.faults.rollbackKeyword k = false) :
    ∃ hanpin, (m.rollBackIndex t v).store = rollBackSnapshot t v { m.store with
      hanpin
      keyword := fun row => m.store.keyword row &&
        !m.formatKey.entries.any (rolledBack t v · row) } := by
  obtain ⟨hanpin₁, h₁⟩ := rollBackSelfIndex_hanpin (t := t) m .string
  obtain ⟨hanpin₂, h₂⟩ := rollBackSelfIndex_hanpin (t := t) (m.rollBackSelfIndex t .string) .text
  refine ⟨hanpin₂, ?_⟩
  unfold rollBackIndex
  rw [h₂, h₁]
  dsimp only
  rw [rollBackKeywords_eq fun k hk => h k (FormatKey.mem_entries.mp hk)]

theorem handleFields_rolledBack {tv : Nat} (h : SnapshotAt m.store t.doc n (tv + 1)) (hle : n ≤ tv)
    (hfails : (m.handleFields t (tv + 1) unionFields).1 ≠ .ok)
    (hroll : ∀ k ∈ notedKeys (progress t (tv + 1) m.store.keyword t.fields),
      t.faults.rollbackKeyword k = false) :
    RolledBack t (tv + 1) n unionFields m.store (m.handleFields t (tv + 1) unionFields).2.store
      (progress t (tv + 1) m.store.keyword t.fields) := by
  obtain ⟨m', hm', hfailed⟩ := handleFields_failed hfails
  rw [← hfailed.formatKey] at hroll
  obtain ⟨hanpin, hstore⟩ := rollBackIndex_store (v := tv + 1) m' hroll
  rw [hm', hstore]
  have hat : SnapshotAt { m'.store with
      hanpin
      keyword := fun row => m'.store.keyword row &&
        !m'.formatKey.entries.any (rolledBack t (tv + 1) · row) } t.doc n (tv + 1) :=
    h.congr (congrFun hfailed.snapshot t.doc)
  obtain ⟨rows, tv', hback, hat'⟩ := rollBackSnapshot_of (t := t) hat hle
  rw [hback]
  refine ⟨⟨tv', hat'⟩, ?_, hfailed.pending, ?_, ?_⟩
  · intro doc hne
    simp [Store.setSnapshot, hne, hfailed.snapshot]
  · intro row hrow
    obtain ⟨hrow, hkept⟩ : m'.store.keyword row = true ∧
        ∀ k ∈ m'.formatKey, rolledBack t (tv + 1) k row = false := by
      simpa [Store.setSnapshot, FormatKey.mem_entries] using hrow
    rw [hfailed.formatKey] at hkept
    refine ⟨?_, hkept⟩
    rcases hfailed.only hrow with hrow | ⟨k, hk, rfl⟩ | hunion
    · exact .inl hrow
    · have hback := hkept k hk
      rw [rolledBack_keywordRow] at hback
      cases hback
    · exact .inr hunion
  · intro row hrow hother
    have hnone : ∀ k ∈ m'.formatKey, rolledBack t (tv + 1) k row = false := by
      intro k _
      apply Bool.eq_false_iff.mpr
      intro hselects
      obtain ⟨-, hdoc, hversion, -⟩ : row.key = k.2 ∧ row.doc = t.doc ∧
          row.docVersion = tv + 1 ∧ row.field = k.1 := by
        simpa [rolledBack, DeleteItem.selects] using hselects
      exact hother.elim (fun hne => hne hdoc) fun hne => hne hversion
    simpa [Store.setSnapshot, FormatKey.mem_entries, hfailed.keeps hrow] using hnone

end Manager

/-- The index and, for each document, the postings of the add or update that was acknowledged last,
unless a delete was acknowledged since. -/
structure State (C : Type) where
  manager : Manager C
  acked : Doc → Option (List KeywordRow)

inductive Op (C : Type) where
  | add (t : AddRequest C)
  | delete (d : DeleteRequest)
  | coalesce
  | processCycle

namespace State

variable (unionFields : Nat → List (List Nat))

/-- The union keys of an application are those of its table definition. -/
def step (σ : State C) : Op C → State C
  | .add t =>
    let v := Manager.nextVersion σ.manager.store t.doc
    let (ret, manager) := σ.manager.handleAdd t (unionFields t.doc.appid)
    let rows := some (t.rows v (unionFields t.doc.appid))
    { manager, acked := if ret = .ok then Function.update σ.acked t.doc rows else σ.acked }
  | .delete d =>
    let (ret, manager) := σ.manager.deleteDtcFields d
    { manager, acked := if ret = .ok then Function.update σ.acked d.doc none else σ.acked }
  | .coalesce => { σ with manager.store := σ.manager.store.coalesce }
  | .processCycle => { σ with manager.store := σ.manager.store.processCycle }

end State

/-! ## The invariant -/

/-- What has to hold for a document. -/
structure Mirrors (s : Store C) (doc : Doc) (acked : Option (List KeywordRow)) : Prop where
  snapshot : ∃ tv, SnapshotAt s doc (s.published doc) tv
  unpublished : s.published doc = 0 ↔ acked = none
  /-- The acknowledged postings are there, and no deletion of one is queued. -/
  current : ∀ row ∈ acked.getD [], row.doc = doc ∧ row.docVersion = s.published doc ∧
    s.keyword row = true ∧ ∀ item ∈ s.pending, item.selects row = false
  /-- The deletion of any other posting that could be taken for one is queued. -/
  stale : ∀ row, s.keyword row = true → row.doc = doc → s.published doc ≤ row.docVersion →
    row ∈ acked.getD [] ∨ ∃ item ∈ s.pending, item.selects row = true

namespace Mirrors

variable {s s' : Store C} {doc : Doc} {acked : Option (List KeywordRow)}

/-- Requests for other documents. -/
theorem frame (h : Mirrors s doc acked) (hsnapshot : s'.snapshot doc = s.snapshot doc)
    (hkeyword : ∀ row, row.doc = doc → s'.keyword row = s.keyword row) {items : List DeleteItem}
    (hpending : s'.pending = s.pending ++ items) (hitems : ∀ item ∈ items, item.doc ≠ doc) :
    Mirrors s' doc acked := by
  have hpublished : s'.published doc = s.published doc := by rw [Store.published, hsnapshot]; rfl
  obtain ⟨tv, hat⟩ := h.snapshot
  refine ⟨⟨tv, hpublished ▸ hat.congr hsnapshot⟩, hpublished ▸ h.unpublished, ?_, ?_⟩
  · intro row hrow
    obtain ⟨hdoc, hversion, hpresent, hkept⟩ := h.current row hrow
    refine ⟨hdoc, hversion.trans hpublished.symm, (hkeyword row hdoc).trans hpresent, ?_⟩
    intro item hitem
    rw [hpending, List.mem_append] at hitem
    rcases hitem with hitem | hitem
    · exact hkept item hitem
    · have hne := hitems item hitem
      simp [DeleteItem.selects, hdoc, hne.symm]
  · intro row hrow hdoc hversion
    rw [hkeyword row hdoc] at hrow
    rw [hpublished] at hversion
    apply (h.stale row hrow hdoc hversion).imp_right
    rintro ⟨item, hitem, hselects⟩
    exact ⟨item, hpending ▸ List.mem_append_left items hitem, hselects⟩

theorem coalesce (h : Mirrors s doc acked) : Mirrors s.coalesce doc acked := by
  have hmem : ∀ item, item ∈ s.coalesce.pending ↔ item ∈ s.pending := fun _ => List.mem_eraseDups
  refine ⟨?_, h.unpublished, ?_, ?_⟩
  · obtain ⟨tv, hat⟩ := h.snapshot
    exact ⟨tv, hat.congr rfl⟩
  · intro row hrow
    obtain ⟨hdoc, hversion, hpresent, hkept⟩ := h.current row hrow
    exact ⟨hdoc, hversion, hpresent, fun item hitem => hkept item ((hmem item).mp hitem)⟩
  · intro row hrow hdoc hversion
    simpa only [hmem] using h.stale row hrow hdoc hversion

theorem processCycle (h : Mirrors s doc acked) : Mirrors s.processCycle doc acked := by
  unfold Store.processCycle
  split
  · exact h
  next item pending heq =>
    refine ⟨?_, h.unpublished, ?_, ?_⟩
    · obtain ⟨tv, hat⟩ := h.snapshot
      exact ⟨tv, hat.congr rfl⟩
    · intro row hrow
      obtain ⟨hdoc, hversion, hpresent, hkept⟩ := h.current row hrow
      rw [heq] at hkept
      refine ⟨hdoc, hversion, ?_, fun item' hitem => hkept item' (List.mem_cons_of_mem item hitem)⟩
      simp [Store.deleteIndex, hpresent, hkept item List.mem_cons_self]
    · intro row hrow hdoc hversion
      obtain ⟨hrow, hkept⟩ : s.keyword row = true ∧ item.selects row = false := by
        simpa [Store.deleteIndex] using hrow
      apply (h.stale row hrow hdoc hversion).imp_right
      rintro ⟨item', hitem, hselects⟩
      rw [heq] at hitem
      rcases List.mem_cons.mp hitem with rfl | hitem
      · rw [hkept] at hselects
        cases hselects
      · exact ⟨item', hitem, hselects⟩

/-- Once the queue is drained, the postings of the published version are the acknowledged ones. -/
theorem keyword_iff {rows : List KeywordRow} {row : KeywordRow} (h : Mirrors s doc (some rows))
    (hdrained : s.pending = []) (hdoc : row.doc = doc)
      (hversion : row.docVersion = s.published doc) :
    s.keyword row = true ↔ row ∈ rows := by
  constructor
  · intro hrow
    apply (h.stale row hrow hdoc hversion.ge).resolve_right
    rintro ⟨item, hitem, -⟩
    rw [hdrained] at hitem
    cases hitem
  · exact fun hrow => (h.current row hrow).2.2.1

theorem not_unpublished {row : KeywordRow} (h : Mirrors s doc none) (hdrained : s.pending = [])
    (hrow : s.keyword row = true) : row.doc ≠ doc := by
  intro hdoc
  have hzero := h.unpublished.mpr rfl
  rcases h.stale row hrow hdoc (hzero ▸ Nat.zero_le _) with hcurrent | ⟨item, hitem, -⟩
  · cases hcurrent
  · rw [hdrained] at hitem
    cases hitem

theorem exists_row {rows : List KeywordRow} (h : Mirrors s doc (some rows)) :
    ∃ r, s.snapshot doc = [r] := by
  obtain ⟨tv, hat⟩ := h.snapshot
  generalize hn : s.published doc = n at hat
  cases hat with
  | none hnil => exact absurd (h.unpublished.mp hn) (Option.some_ne_none rows)
  | row hrow hle hpos => exact ⟨_, hrow⟩

end Mirrors

/-! ## Adds and updates -/

namespace AddRequest

variable (t : AddRequest C) (unionFields : List (List Nat)) (s : Store C)

/-- No deletion is queued that selects a posting of the request, and its union keys can be
inserted. -/
structure Lasts (v : Nat) : Prop where
  pending : ∀ row ∈ t.rows v unionFields, ∀ item ∈ s.pending, item.selects row = false
  union : ∀ key ∈ t.unionKeys unionFields, t.faults.union key = false

/-- A request that stops at `p` leaves no posting behind, and no deletion of one that is
published. -/
structure Vanishes (v : Nat) (p : List Field × Stop) : Prop where
  keyword : ∀ k ∈ notedKeys p, t.faults.rollbackKeyword k = false
  union : ∀ key ∈ Manager.unionWritten t unionFields p,
    s.keyword (Manager.unionRow t v key) = true ∨
      ∃ k ∈ notedKeys p, Manager.rolledBack t v k (Manager.unionRow t v key) = true
  queued : ∀ item ∈ Manager.queued t v s p, ∀ row, s.keyword row = true →
    item.selects row = true → row.docVersion ≠ s.published t.doc

/-- When an add or update is harmless: if it reserves its version, it either gets through and lasts
or vanishes. -/
def Harmless : Prop :=
  let v := Manager.nextVersion s t.doc
  let p := progress t v s.keyword t.fields
  t.faults.getSnapshot = false → t.faults.reserve = false →
    if p.2 = .done ∧ t.faults.publish = false then t.Lasts unionFields s v
    else t.Vanishes unionFields s v p

end AddRequest

namespace Manager

variable {t : AddRequest C} {m : Manager C} {n tv v : Nat} {unionFields : List (List Nat)}
  {s s' : Store C} {acked : Option (List KeywordRow)}

theorem queued_doc {p : List Field × Stop} {item : DeleteItem} (h : item ∈ queued t v s p) :
    item.doc = t.doc ∧ item.docVersion = v - 1 := by
  unfold queued at h
  split at h
  · obtain ⟨k, -, rfl⟩ := List.mem_map.mp h
    exact ⟨rfl, rfl⟩
  · cases h

theorem selects_version {item : DeleteItem} {row : KeywordRow} (h : item.selects row = true) :
    row.doc = item.doc ∧ row.docVersion = item.docVersion := by
  obtain ⟨-, hdoc, hversion, -⟩ : row.key = item.word ∧ row.doc = item.doc ∧
      row.docVersion = item.docVersion ∧ row.field = item.field := by
    simpa [DeleteItem.selects] using h
  exact ⟨hdoc, hversion⟩

theorem mem_rows {row : KeywordRow} : row ∈ t.rows v unionFields ↔
    (∃ k ∈ t.keys, row = keywordRow t v k.1 k.2) ∨
      ∃ key ∈ t.unionKeys unionFields, row = unionRow t v key := by
  simp only [AddRequest.rows, List.mem_append, List.mem_map, eq_comm]

theorem rows_version {row : KeywordRow} (h : row ∈ t.rows v unionFields) :
    row.doc = t.doc ∧ row.docVersion = v := by
  rcases mem_rows.mp h with ⟨k, -, rfl⟩ | ⟨key, -, rfl⟩
  · exact ⟨rfl, rfl⟩
  · exact ⟨rfl, rfl⟩

/-- An acknowledged request. -/
theorem Published.mirrors (h : Mirrors s t.doc acked) (hat : SnapshotAt s t.doc n tv)
    (hpub : Published t (tv + 1) unionFields s s') (hlasts : t.Lasts unionFields s (tv + 1)) :
    Mirrors s' t.doc (some (t.rows (tv + 1) unionFields)) := by
  have hkeyword (row : KeywordRow) : s'.keyword row = true ↔
      s.keyword row = true ∨ row ∈ t.rows (tv + 1) unionFields := by
    rw [hpub.keyword, mem_rows]
    refine or_congr_right (or_congr_right ?_)
    constructor
    · rintro ⟨key, hkey, -, hrow⟩
      exact ⟨key, hkey, hrow⟩
    · rintro ⟨key, hkey, hrow⟩
      exact ⟨key, hkey, hlasts.union key hkey, hrow⟩
  have hpublished := hpub.snapshot.published
  refine ⟨⟨tv + 1, hpublished.symm ▸ hpub.snapshot⟩, ?_, ?_, ?_⟩
  · simp [hpublished]
  · intro row hrow
    obtain ⟨hdoc, hversion⟩ := rows_version hrow
    refine ⟨hdoc, hversion.trans hpublished.symm, (hkeyword row).mpr (.inr hrow), ?_⟩
    intro item hitem
    rw [hpub.pending, List.mem_append] at hitem
    rcases hitem with hitem | hitem
    · exact hlasts.pending row hrow item hitem
    · apply Bool.eq_false_iff.mpr
      intro hselects
      have hqueued := (queued_doc hitem).2
      have hselected := (selects_version hselects).2
      omega
  · intro row hrow hdoc hversion
    rcases (hkeyword row).mp hrow with hrow | hrow
    · right
      rw [hpublished] at hversion
      have hle := hat.le
      rcases h.stale row hrow hdoc (by rw [hat.published]; omega) with hcurrent | hstale
      · -- an acknowledged posting has the version before
        have hbefore := (h.current row hcurrent).2.1
        rw [hat.published] at hbefore
        omega
      · obtain ⟨item, hitem, hselects⟩ := hstale
        exact ⟨item, hpub.pending ▸ List.mem_append_left _ hitem, hselects⟩
    · exact .inl hrow

/-- A request that fails. -/
theorem RolledBack.mirrors {p : List Field × Stop} (h : Mirrors s t.doc acked)
    (hat : SnapshotAt s t.doc n tv) (hback : RolledBack t (tv + 1) n unionFields s s' p)
    (hvanishes : t.Vanishes unionFields s (tv + 1) p) : Mirrors s' t.doc acked := by
  obtain ⟨tv', hat'⟩ := hback.snapshot
  have hpublished : s'.published t.doc = s.published t.doc := by rw [hat.published, hat'.published]
  refine ⟨⟨tv', by rwa [hat'.published]⟩, hpublished ▸ h.unpublished, ?_, ?_⟩
  · intro row hrow
    obtain ⟨hdoc, hversion, hpresent, hkept⟩ := h.current row hrow
    have hle := hat.le
    refine ⟨hdoc, hversion.trans hpublished.symm, hback.keeps hpresent (.inr ?_), ?_⟩
    · rw [hversion, hat.published]
      omega
    intro item hitem
    rw [hback.pending, List.mem_append] at hitem
    rcases hitem with hitem | hitem
    · exact hkept item hitem
    · apply Bool.eq_false_iff.mpr
      intro hselects
      exact hvanishes.queued item hitem row hpresent hselects hversion
  · intro row hrow hdoc hversion
    obtain ⟨hrow, hkept⟩ := hback.only hrow
    rw [hpublished] at hversion
    have hpresent : s.keyword row = true := by
      rcases hrow with hrow | ⟨key, hkey, rfl⟩
      · exact hrow
      · rcases hvanishes.union key hkey with hrow | ⟨k, hk, hselected⟩
        · exact hrow
        · rw [hkept k hk] at hselected
          cases hselected
    apply (h.stale row hpresent hdoc hversion).imp_right
    rintro ⟨item, hitem, hselects⟩
    exact ⟨item, hback.pending ▸ List.mem_append_left _ hitem, hselects⟩

/-- Reserving the version changes nothing else. -/
theorem Published.of_reserved {rows : List (SnapshotRow C)}
    (h : Published t v unionFields (s.setSnapshot t.doc rows) s') :
    Published t v unionFields s s' where
  snapshot := h.snapshot
  other doc hne := (h.other doc hne).trans (update_of_ne hne _ _)
  pending := h.pending
  keyword := h.keyword

theorem RolledBack.of_reserved {rows : List (SnapshotRow C)} {p : List Field × Stop}
    (h : RolledBack t v n unionFields (s.setSnapshot t.doc rows) s' p) :
    RolledBack t v n unionFields s s' p where
  snapshot := h.snapshot
  other doc hne := (h.other doc hne).trans (update_of_ne hne _ _)
  pending := h.pending
  only := h.only
  keeps := h.keeps

theorem handleAdd_of_reserved {store : Store C} (h : m.updateTransVersion t = (.ok, v, store)) :
    m.handleAdd t unionFields = { m with store }.handleFields t v unionFields := by
  rw [handleAdd, h]

theorem handleAdd_of_not_reserved (h : (m.updateTransVersion t).1 ≠ .ok) :
    m.handleAdd t unionFields = ((m.updateTransVersion t).1, m) := by
  unfold handleAdd
  split
  next v store heq =>
    rw [heq] at h
    exact absurd rfl h
  next ret v store hne heq => rw [heq]

theorem handleAdd_published (unionFields : List (List Nat)) (h : SnapshotAt m.store t.doc n tv)
    (hget : t.faults.getSnapshot = false) (hreserve : t.faults.reserve = false)
    (hdone : (progress t (tv + 1) m.store.keyword t.fields).2 = .done)
    (hpublish : t.faults.publish = false) :
    (m.handleAdd t unionFields).1 = .ok ∧
      Published t (tv + 1) unionFields m.store (m.handleAdd t unionFields).2.store := by
  obtain ⟨rows, heq, hat⟩ := updateTransVersion_of h hget hreserve
  rw [handleAdd_of_reserved heq]
  let m₁ : Manager C := { m with store := m.store.setSnapshot t.doc rows }
  have hat₁ : SnapshotAt m₁.store t.doc n (tv + 1) := hat
  obtain ⟨hok, hpub⟩ := handleFields_published hat₁ (Nat.lt_succ_of_le h.le) hdone hpublish
  exact ⟨hok, hpub.of_reserved⟩

theorem handleAdd_rolledBack (unionFields : List (List Nat)) (h : SnapshotAt m.store t.doc n tv)
    (hget : t.faults.getSnapshot = false) (hreserve : t.faults.reserve = false)
    (hfails : ¬ ((progress t (tv + 1) m.store.keyword t.fields).2 = .done ∧
      t.faults.publish = false))
    (hroll : ∀ k ∈ notedKeys (progress t (tv + 1) m.store.keyword t.fields),
      t.faults.rollbackKeyword k = false) :
    (m.handleAdd t unionFields).1 ≠ .ok ∧
      RolledBack t (tv + 1) n unionFields m.store (m.handleAdd t unionFields).2.store
        (progress t (tv + 1) m.store.keyword t.fields) := by
  obtain ⟨rows, heq, hat⟩ := updateTransVersion_of h hget hreserve
  rw [handleAdd_of_reserved heq]
  let m₁ : Manager C := { m with store := m.store.setSnapshot t.doc rows }
  have hat₁ : SnapshotAt m₁.store t.doc n (tv + 1) := hat
  have hne : (m₁.handleFields t (tv + 1) unionFields).1 ≠ .ok := handleFields_ne hfails
  exact ⟨hne, (handleFields_rolledBack hat₁ h.le hne hroll).of_reserved⟩

/-- The deletions that a delete request queues. -/
def deleteQueued (d : DeleteRequest) (s : Store C) : List DeleteItem :=
  if d.getIndexData = false then
    let oldVersion := (s.getSnapshotActiveDoc d.doc).getD 0
    deleteItems d.doc oldVersion (s.getIndexData d.doc oldVersion)
  else []

theorem deleteDtcFields_of_fault {d : DeleteRequest}
    (h : d.deleteHanpin = true ∨ d.getSnapshot = true) :
    (m.deleteDtcFields d).1 ≠ .ok ∧ (m.deleteDtcFields d).2 = m := by
  unfold deleteDtcFields
  by_cases hhanpin : d.deleteHanpin = true
  · rw [if_pos hhanpin]
    exact ⟨RetCode.noConfusion, rfl⟩
  · rw [if_neg hhanpin, if_pos (h.resolve_left hhanpin)]
    exact ⟨RetCode.noConfusion, rfl⟩

theorem deleteDtcFields_spec {d : DeleteRequest} (hhanpin : d.deleteHanpin = false)
    (hget : d.getSnapshot = false) (m : Manager C) :
    ∃ docidIndex, m.deleteDtcFields d = (if d.deleteSnapshot then .errorDeleteSnapshot else .ok,
      { m with store := { (if d.deleteSnapshot then m.store
        else m.store.deleteSnapshotDtc d.doc) with
        docidIndex
        pending := m.store.pending ++ deleteQueued d m.store } }) := by
  have hregister : (if d.getIndexData then m.store
      else m.store.registerInfo (deleteItems d.doc ((m.store.getSnapshotActiveDoc d.doc).getD 0)
        (m.store.getIndexData d.doc ((m.store.getSnapshotActiveDoc d.doc).getD 0)))) =
      { m.store with pending := m.store.pending ++ deleteQueued d m.store } := by
    unfold deleteQueued
    cases d.getIndexData with
    | true => simp
    | false => simp [Store.registerInfo]
  unfold deleteDtcFields
  rw [hhanpin, hget, if_neg Bool.false_ne_true, if_neg Bool.false_ne_true]
  dsimp only
  rw [hregister]
  cases d.deleteSnapshot with
  | true =>
    cases d.deleteDocidIndex with
    | true => exact ⟨_, rfl⟩
    | false => exact ⟨_, rfl⟩
  | false =>
    cases d.deleteDocidIndex with
    | true => exact ⟨_, rfl⟩
    | false => exact ⟨_, rfl⟩

theorem deleteQueued_doc {d : DeleteRequest} {item : DeleteItem} (h : item ∈ deleteQueued d s) :
    item.doc = d.doc := by
  unfold deleteQueued at h
  split at h
  · obtain ⟨k, -, rfl⟩ := List.mem_map.mp h
    rfl
  · cases h

end Manager

/-- When a delete is harmless: one that is acknowledged finds every posting of the document among
the keys of the record or the queued deletions, and one that fails queues no deletion of a posting
that is published. -/
def DeleteRequest.Harmless (d : DeleteRequest) (s : Store C) : Prop :=
  d.deleteHanpin = false → d.getSnapshot = false →
    if d.deleteSnapshot then
      ∀ item ∈ Manager.deleteQueued d s, ∀ row, s.keyword row = true → item.selects row = true →
        row.docVersion ≠ s.published d.doc
    else
      ∀ row, s.keyword row = true → row.doc = d.doc →
        ∃ item ∈ s.pending ++ Manager.deleteQueued d s, item.selects row = true

/-! ## Runs -/

namespace State

variable {unionFields : Nat → List (List Nat)} {σ : State C}

/-- Every document mirrors its acknowledged content. -/
def Inv (σ : State C) : Prop := ∀ doc, Mirrors σ.manager.store doc (σ.acked doc)

/-- The conditions on requests. -/
def Harmless (unionFields : Nat → List (List Nat)) (σ : State C) : Op C → Prop
  | .add t => t.Harmless (unionFields t.doc.appid) σ.manager.store
  | .delete d => d.Harmless σ.manager.store
  | .coalesce | .processCycle => True

theorem Inv.published {t : AddRequest C} (h : σ.Inv)
    (hharmless : t.Harmless (unionFields t.doc.appid) σ.manager.store) {tv : Nat}
    (hat : SnapshotAt σ.manager.store t.doc (σ.manager.store.published t.doc) tv)
    (hget : t.faults.getSnapshot = false) (hreserve : t.faults.reserve = false)
    (hdone : (progress t (tv + 1) σ.manager.store.keyword t.fields).2 = .done ∧
      t.faults.publish = false) :
    (σ.step unionFields (.add t)).Inv := by
  have hlasts := hharmless hget hreserve
  rw [hat.nextVersion, if_pos hdone] at hlasts
  obtain ⟨hok, hpub⟩ := Manager.handleAdd_published (unionFields t.doc.appid) hat
    hget hreserve hdone.1 hdone.2
  intro doc
  rw [step]
  dsimp only
  rw [if_pos hok, hat.nextVersion]
  by_cases hdoc : doc = t.doc
  · subst hdoc
    rw [update_self]
    exact hpub.mirrors (h t.doc) hat hlasts
  · rw [update_of_ne hdoc]
    apply (h doc).frame (hpub.other doc hdoc) ?_ hpub.pending
    · intro item hitem
      rw [(Manager.queued_doc hitem).1]
      exact Ne.symm hdoc
    · intro row hrow
      rw [Bool.eq_iff_iff, hpub.keyword]
      constructor
      · rintro (hrow | ⟨k, -, rfl⟩ | ⟨key, -, -, rfl⟩)
        · exact hrow
        · exact absurd hrow.symm hdoc
        · exact absurd hrow.symm hdoc
      · exact .inl

theorem Inv.rolledBack {t : AddRequest C} (h : σ.Inv)
    (hharmless : t.Harmless (unionFields t.doc.appid) σ.manager.store) {tv : Nat}
    (hat : SnapshotAt σ.manager.store t.doc (σ.manager.store.published t.doc) tv)
    (hget : t.faults.getSnapshot = false) (hreserve : t.faults.reserve = false)
    (hfails : ¬ ((progress t (tv + 1) σ.manager.store.keyword t.fields).2 = .done ∧
      t.faults.publish = false)) :
    (σ.step unionFields (.add t)).Inv := by
  have hvanishes := hharmless hget hreserve
  rw [hat.nextVersion, if_neg hfails] at hvanishes
  obtain ⟨hne, hback⟩ := Manager.handleAdd_rolledBack (unionFields t.doc.appid) hat
    hget hreserve hfails hvanishes.keyword
  intro doc
  rw [step]
  dsimp only
  rw [if_neg hne]
  by_cases hdoc : doc = t.doc
  · subst hdoc
    exact hback.mirrors (h t.doc) hat hvanishes
  · apply (h doc).frame (hback.other doc hdoc) ?_ hback.pending
    · intro item hitem
      rw [(Manager.queued_doc hitem).1]
      exact Ne.symm hdoc
    · intro row hrow
      rw [Bool.eq_iff_iff]
      constructor
      · intro hpresent
        rcases (hback.only hpresent).1 with hpresent | ⟨key, -, rfl⟩
        · exact hpresent
        · exact absurd hrow.symm hdoc
      · intro hpresent
        exact hback.keeps hpresent (.inl (hrow ▸ hdoc))

theorem Inv.add {t : AddRequest C} (h : σ.Inv)
    (hharmless : t.Harmless (unionFields t.doc.appid) σ.manager.store) :
    (σ.step unionFields (.add t)).Inv := by
  by_cases hfault : t.faults.getSnapshot = true ∨ t.faults.reserve = true
  · have hne := Manager.updateTransVersion_ne (m := σ.manager) hfault
    have hsame : σ.step unionFields (.add t) = σ := by
      rw [step, Manager.handleAdd_of_not_reserved hne]
      dsimp only
      rw [if_neg hne]
    rw [hsame]
    exact h
  · obtain ⟨hget, hreserve⟩ : t.faults.getSnapshot = false ∧ t.faults.reserve = false := by
      simpa using hfault
    obtain ⟨tv, hat⟩ := (h t.doc).snapshot
    by_cases hdone : (progress t (tv + 1) σ.manager.store.keyword t.fields).2 = .done ∧
        t.faults.publish = false
    · exact h.published hharmless hat hget hreserve hdone
    · exact h.rolledBack hharmless hat hget hreserve hdone

theorem Inv.delete {d : DeleteRequest} (h : σ.Inv) (hharmless : d.Harmless σ.manager.store) :
    (σ.step unionFields (.delete d)).Inv := by
  by_cases hfault : d.deleteHanpin = true ∨ d.getSnapshot = true
  · obtain ⟨hne, hstore⟩ := Manager.deleteDtcFields_of_fault (m := σ.manager) hfault
    rw [step]
    dsimp only
    rw [if_neg hne, hstore]
    exact h
  obtain ⟨hhanpin, hget⟩ : d.deleteHanpin = false ∧ d.getSnapshot = false := by
    simpa using hfault
  have hcond := hharmless hhanpin hget
  obtain ⟨docidIndex, heq⟩ := Manager.deleteDtcFields_spec hhanpin hget σ.manager
  rw [step, heq]
  dsimp only
  have hitems {doc : Doc} (hdoc : doc ≠ d.doc) :
      ∀ item ∈ Manager.deleteQueued d σ.manager.store, item.doc ≠ doc := by
    intro item hitem
    rw [Manager.deleteQueued_doc hitem]
    exact Ne.symm hdoc
  intro doc
  cases hsnapshot : d.deleteSnapshot with
  | true =>
    rw [hsnapshot, if_pos rfl] at hcond
    simp only [if_true, reduceCtorEq, if_false]
    by_cases hdoc : doc = d.doc
    · subst hdoc
      obtain ⟨tv, hat⟩ := (h d.doc).snapshot
      refine ⟨⟨tv, hat.congr rfl⟩, (h d.doc).unpublished, ?_, ?_⟩
      · intro row hrow
        obtain ⟨hdoc, hversion, hpresent, hkept⟩ := (h d.doc).current row hrow
        refine ⟨hdoc, hversion, hpresent, ?_⟩
        intro item hitem
        rcases List.mem_append.mp hitem with hitem | hitem
        · exact hkept item hitem
        · apply Bool.eq_false_iff.mpr
          intro hselects
          exact hcond item hitem row hpresent hselects hversion
      · intro row hrow hdoc hversion
        apply ((h d.doc).stale row hrow hdoc hversion).imp_right
        rintro ⟨item, hitem, hselects⟩
        exact ⟨item, List.mem_append_left _ hitem, hselects⟩
    · exact (h doc).frame rfl (fun _ _ => rfl) rfl (hitems hdoc)
  | false =>
    rw [hsnapshot, if_neg Bool.false_ne_true] at hcond
    simp only [Bool.false_eq_true, if_false, if_true]
    by_cases hdoc : doc = d.doc
    · subst hdoc
      rw [update_self]
      have hat : SnapshotAt (σ.manager.store.deleteSnapshotDtc d.doc) d.doc 0 0 :=
        .none (Store.snapshot_setSnapshot _)
      have hpublished := hat.published
      refine ⟨⟨0, SnapshotAt.self (n := 0) (hat.congr rfl)⟩, ?_, ?_, ?_⟩
      · exact ⟨fun _ => rfl, fun _ => hpublished⟩
      · intro row hrow
        cases hrow
      · intro row hrow hdoc _
        exact .inr (hcond row hrow hdoc)
    · rw [update_of_ne hdoc]
      exact (h doc).frame (update_of_ne hdoc _ _) (fun _ _ => rfl) rfl (hitems hdoc)

theorem Inv.step {op : Op C} (h : σ.Inv) (hharmless : σ.Harmless unionFields op) :
    (σ.step unionFields op).Inv := by
  cases op with
  | add t => exact h.add hharmless
  | delete d => exact h.delete hharmless
  | coalesce => exact fun doc => (h doc).coalesce
  | processCycle => exact fun doc => (h doc).processCycle

/-- The index before any request. -/
def initial : State C := { manager := Manager.idle Manager.emptyStore, acked := fun _ => none }

theorem inv_initial : (initial : State C).Inv := fun _ =>
  ⟨⟨0, .none rfl⟩, ⟨fun _ => rfl, fun _ => rfl⟩, fun _ hrow => absurd hrow List.not_mem_nil,
    fun _ hrow => Bool.noConfusion hrow⟩

/-- In a run of harmless requests, a drained queue leaves the postings that the snapshot names to be
those of the last acknowledged request, and none after a delete. -/
theorem run_mirrors (unionFields : Nat → List (List Nat)) (ops : List (Op C))
    (hops : AlongRun (fun σ op => some (step unionFields σ op)) (Harmless unionFields)
      initial ops) :
    ∃ σ, runOps (fun σ op => some (step unionFields σ op)) initial ops = some σ ∧
      (σ.manager.store.pending = [] → ∀ doc,
        match σ.acked doc with
        | some rows => ∃ r, σ.manager.store.snapshot doc = [r] ∧ ∀ row, row.doc = doc →
            row.docVersion = r.docVersion → (σ.manager.store.keyword row = true ↔ row ∈ rows)
        | none => ∀ row, row.doc = doc → σ.manager.store.keyword row = false) := by
  obtain ⟨σ, hrun, hinv⟩ := invariant_along (fun σ op (h : σ.Inv) hop => ⟨_, rfl, h.step hop⟩)
    inv_initial ops hops
  refine ⟨σ, hrun, fun hdrained doc => ?_⟩
  have hdoc := hinv doc
  cases hacked : σ.acked doc with
  | none =>
    rw [hacked] at hdoc
    intro row hrow
    apply Bool.eq_false_iff.mpr
    intro hpresent
    exact hdoc.not_unpublished hdrained hpresent hrow
  | some rows =>
    rw [hacked] at hdoc
    obtain ⟨r, hr⟩ := hdoc.exists_row
    have hpublished : σ.manager.store.published doc = r.docVersion := by
      simp [Store.published, hr]
    refine ⟨r, hr, fun row hrow hversion => ?_⟩
    rw [← hpublished] at hversion
    exact hdoc.keyword_iff hdrained hrow hversion

def word (fieldId : Nat) (value : String) : Field where
  fieldId
  fieldType := .int
  indexed := true
  value
  converts := true
  isReady := true
  generateError := none
  intelligent := []
  words := [⟨value, false⟩]

def addWords (fields : List Field) : AddRequest String where
  doc := ⟨10, "a"⟩
  fields
  content := ""
  faults := Manager.noFaults

/-- An add, an update, and the deletion that the update has queued. -/
theorem run_mirrors_update :
    ∃ σ, runOps (fun σ op => some (step (fun _ => []) σ op)) initial
        [.add (addWords [word 2 "7"]), .add (addWords [word 2 "8"]), .processCycle] = some σ ∧
      σ.manager.store.pending = [] ∧
      σ.acked ⟨10, "a"⟩ = some [⟨"8", ⟨10, "a"⟩, 2, 2, 2⟩] ∧
      ∀ row, row.doc = ⟨10, "a"⟩ → row.docVersion = 2 →
        (σ.manager.store.keyword row = true ↔ row = ⟨"8", ⟨10, "a"⟩, 2, 2, 2⟩) := by
  have hops : AlongRun (fun σ op => some (step (fun _ => []) σ op)) (Harmless fun _ => []) initial
      [.add (addWords [word 2 "7"]), .add (addWords [word 2 "8"]), .processCycle] := by
    refine ⟨fun _ _ => ?_, fun σ₁ h₁ => ?_⟩
    · exact ⟨by decide, by decide⟩
    cases h₁
    refine ⟨fun _ _ => ?_, fun σ₂ h₂ => ?_⟩
    · exact ⟨by decide, by decide⟩
    cases h₂
    exact ⟨trivial, fun _ _ => trivial⟩
  obtain ⟨σ, hrun, hmirrors⟩ := run_mirrors (fun _ => []) _ hops
  refine ⟨σ, hrun, ?_⟩
  cases hrun
  refine ⟨by decide, by decide, ?_⟩
  obtain ⟨r, hr, hrows⟩ := hmirrors (by decide) ⟨10, "a"⟩
  obtain rfl : r = ⟨2, 2, some ""⟩ := List.singleton_inj.mp (hr.symm.trans (by rfl))
  intro row hrow hversion
  exact (hrows row hrow hversion).trans List.mem_singleton

/-- The union row of a document survives its delete. -/
theorem run_delete_leaves_union :
    ∃ σ, runOps (fun σ op => some (step (fun _ => [[2, 3]]) σ op)) initial
        [.add (addWords [word 2 "7", word 3 "8"]),
          .delete ⟨⟨10, "a"⟩, false, false, false, false, false⟩, .processCycle, .processCycle] =
          some σ ∧
      σ.manager.store.pending = [] ∧ σ.acked ⟨10, "a"⟩ = none ∧
      σ.manager.store.keyword ⟨"78", ⟨10, "a"⟩, 1, 1, 1⟩ = true := by
  refine ⟨_, rfl, ?_⟩
  decide

end State

end ISearch.IndexWrite
