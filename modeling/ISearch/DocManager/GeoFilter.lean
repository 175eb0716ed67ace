import Mathlib.Data.List.AList
import Mathlib.Data.List.Perm.Basic

/-!
# The filter of a geo clause

`DocManager` keeps the snapshots of documents in a map that lives as long as the query. A geo
clause puts the snapshots that its rows embed into the map, and reads the others only where the map
is empty after that. The distances are computed for what the map holds.
-/

namespace ISearch.DocManager

open Option (or_none getD_some some_or none_or or_eq_none_iff bind_some)
open List

abbrev Bytes := List UInt8

/-- A row of the index, with an embedded snapshot or the empty string. -/
structure IndexInfo (D : Type) where
  docId : Bytes
  extend : Bytes
  distance : D

/-- `hash_string_map`. -/
abbrev HashStringMap := AList fun _ : Bytes => Bytes

/-- `hash_double_map`. -/
abbrev HashDoubleMap (D : Type) := AList fun _ : Bytes => D

/-- An order in which a hash map is gone through. -/
structure Iteration (D : Type) where
  order : List (Σ _ : Bytes, D) → List (Σ _ : Bytes, D)
  perm : ∀ entries, (order entries).Perm entries

variable {D : Type}

/-- The rows of the first loop of `DocManager::GetDocContent`; `insert` keeps what is there. -/
def insertEmbedded (rows : List (IndexInfo D)) (contents : HashStringMap) : HashStringMap :=
  rows.foldl (fun contents row =>
    if row.extend ≠ [] ∧ contents.lookup row.docId = none then
      contents.insert row.docId row.extend
    else contents) contents

/-- `CIndexTableManager::GetSnapshotContent`: one request for the rows of `[left, right)`. `stored`
is what the storage has for a document. -/
def getSnapshotContent (stored : Bytes → Option Bytes) (left right : Nat)
    (rows : List (IndexInfo D)) (contents : HashStringMap) : HashStringMap :=
  ((rows.drop left).take (right - left)).foldl (fun contents row =>
    match stored row.docId with
    | some content => contents.insert row.docId content
    | none => contents) contents

/-- `CIndexTableManager::GetDocContent`: requests for 32 rows, and one for the rest. -/
def readContents (stored : Bytes → Option Bytes) (rows : List (IndexInfo D))
    (contents : HashStringMap) : HashStringMap :=
  let numbers := 32
  let count := rows.length / numbers
  let remain := rows.length % numbers
  let contents := (List.range count).foldl (fun contents index =>
    getSnapshotContent stored (index * numbers) ((index + 1) * numbers) rows contents) contents
  getSnapshotContent stored (rows.length - remain) rows.length rows contents

/-- The map once the snapshots of the rows are looked for. -/
def loadContents (stored : Bytes → Option Bytes) (rows : List (IndexInfo D))
    (contents : HashStringMap) : HashStringMap :=
  let contents := insertEmbedded rows contents
  if contents.entries.isEmpty then readContents stored rows contents else contents

/-- A document of `GetGisDistance`, `none` if its snapshot cannot be parsed. Of a snapshot,
`inRange` gives the distance of the last geo field in range. -/
def addDistance (inRange : Bytes → Option (Option D)) (distances : HashDoubleMap D)
    (doc : Σ _ : Bytes, Bytes) : Option (HashDoubleMap D) :=
  if doc.2 = [] then some distances
  else (inRange doc.2).map fun
    | some dis => distances.insert doc.1 dis
    | none => distances

/-- `GetGisDistance`: the documents in range. -/
def getGisDistance (inRange : Bytes → Option (Option D)) (contents : HashStringMap) :
    Option (HashDoubleMap D) :=
  contents.entries.foldlM (addDistance inRange) ∅

/-- `DocManager::GetDocContent`: whether it succeeds, the rows and the map. -/
def getDocContent (stored : Bytes → Option Bytes) (inRange : Bytes → Option (Option D))
    (iteration : Iteration D) (rows : List (IndexInfo D)) (contents : HashStringMap) :
    Bool × List (IndexInfo D) × HashStringMap :=
  let contents := loadContents stored rows contents
  match getGisDistance inRange contents with
  | none => (false, rows, contents)
  | some distances =>
    (true, (iteration.order distances.entries).flatMap fun ⟨docId, dis⟩ =>
      (rows.filter fun row => docId = row.docId).map fun row => { row with distance := dis },
      contents)

/-- The map that the clauses before leave. -/
def contentsAfter (stored : Bytes → Option Bytes) (clauses : List (List (IndexInfo D))) :
    HashStringMap :=
  clauses.foldl (fun contents rows => loadContents stored rows contents) ∅

/-- The snapshot of a row's document, the empty string if there is none. -/
def IndexInfo.snapshot (stored : Bytes → Option Bytes) (row : IndexInfo D) : Bytes :=
  if row.extend ≠ [] then row.extend else (stored row.docId).getD []

/-- The rows whose snapshot is in range. -/
def rowsInRange (stored : Bytes → Option Bytes) (inRange : Bytes → Option D)
    (rows : List (IndexInfo D)) : List (IndexInfo D) :=
  rows.filterMap fun row =>
    if row.snapshot stored = [] then none
    else (inRange (row.snapshot stored)).map fun dis => { row with distance := dis }

/-- Whatever is in range, the clause keeps the rows in range, behind other clauses as well as
alone. -/
def KeepsInRange (stored : Bytes → Option Bytes) (clauses : List (List (IndexInfo D)))
    (rows : List (IndexInfo D)) : Prop :=
  ∀ (inRange : Bytes → Option D) (iteration : Iteration D),
    ∀ contents ∈ [contentsAfter stored clauses, ∅],
      let out := getDocContent stored
        (fun content => some (inRange content)) iteration rows contents
      out.1 = true ∧ out.2.1.Perm (rowsInRange stored inRange rows)

/-- The first snapshot that the rows embed for a document. -/
def firstEmbedded (rows : List (IndexInfo D)) (docId : Bytes) : Option Bytes :=
  (rows.find? fun row => row.docId = docId ∧ row.extend ≠ []).map (·.extend)

/-- The snapshots of the rows are where they are looked for: in the map, else in the rows, else in
the storage, which is read only where the map is empty and no row embeds a snapshot. -/
structure Found (stored : Bytes → Option Bytes) (contents : HashStringMap)
    (rows : List (IndexInfo D)) : Prop where
  cached : ∀ row ∈ rows, ∀ content, contents.lookup row.docId = some content →
    content = row.snapshot stored
  embedded : ∀ row ∈ rows, contents.lookup row.docId = none →
    ∀ content, firstEmbedded rows row.docId = some content → content = row.snapshot stored
  read : ∀ row ∈ rows, contents.lookup row.docId = none → firstEmbedded rows row.docId = none →
    row.snapshot stored ≠ [] → contents = ∅ ∧ ∀ row ∈ rows, row.extend = []

/-! ## The contents of the map -/

variable {stored : Bytes → Option Bytes} {rows : List (IndexInfo D)} {contents : HashStringMap}

theorem lookup_insertEmbedded (docId : Bytes) : (insertEmbedded rows contents).lookup docId =
    (contents.lookup docId).or (firstEmbedded rows docId) := by
  induction rows generalizing contents with
  | nil => exact (or_none).symm
  | cons row rows ih =>
    refine ih.trans ?_
    rw [firstEmbedded, firstEmbedded, List.find?_cons]
    by_cases hdoc : row.docId = docId <;> by_cases hext : row.extend = []
    · simp [hdoc, hext]
    · subst hdoc
      cases hc : contents.lookup row.docId <;> simp [hext, hc]
    · simp [hdoc, hext]
    · have hne : docId ≠ row.docId := fun h => hdoc h.symm
      cases hc : contents.lookup row.docId <;> simp [hext, hc, hdoc, AList.lookup_insert_ne hne]

theorem lookup_getSnapshotContent (left right : Nat) (docId : Bytes) :
    (getSnapshotContent stored left right rows contents).lookup docId =
      if docId ∈ ((rows.drop left).take (right - left)).map (·.docId) then
        (stored docId).or (contents.lookup docId)
      else contents.lookup docId := by
  rw [getSnapshotContent]
  generalize (rows.drop left).take (right - left) = batch
  induction batch generalizing contents with
  | nil => rfl
  | cons row batch ih =>
    rw [foldl_cons, ih]
    by_cases hdoc : docId = row.docId
    · subst hdoc
      cases hs : stored row.docId <;> simp
    · cases stored row.docId <;> simp [hdoc, AList.lookup_insert_ne hdoc]

/-- Two requests one after the other. -/
theorem ite_mem_append {docIds docIds' : List Bytes} {docId : Bytes} {s c : Option Bytes} :
    (if docId ∈ docIds' then s.or (if docId ∈ docIds then s.or c else c)
      else if docId ∈ docIds then s.or c else c) =
      if docId ∈ docIds ++ docIds' then s.or c else c := by
  simp only [mem_append]
  by_cases hfirst : docId ∈ docIds <;> by_cases hlast : docId ∈ docIds'
  · rw [if_pos hlast, if_pos hfirst, if_pos (.inl hfirst), ← Option.or_assoc, Option.or_self]
  · rw [if_neg hlast, if_pos hfirst, if_pos (.inl hfirst)]
  · rw [if_pos hlast, if_neg hfirst, if_pos (.inr hlast)]
  · rw [if_neg hlast, if_neg hfirst, if_neg (not_or.mpr ⟨hfirst, hlast⟩)]

/-- The requests for full batches read the documents of the first rows. -/
theorem lookup_batches (docId : Bytes) (count : Nat) :
    ((List.range count).foldl (fun contents index =>
      getSnapshotContent stored (index * 32) ((index + 1) * 32) rows contents) contents).lookup
        docId =
      if docId ∈ (rows.take (count * 32)).map (·.docId) then
        (stored docId).or (contents.lookup docId)
      else contents.lookup docId := by
  induction count with
  | zero => rfl
  | succ count ih =>
    have hsplit : rows.take ((count + 1) * 32) =
        rows.take (count * 32) ++ (rows.drop (count * 32)).take 32 := by
      rw [Nat.succ_mul, take_add]
    have hstep : (count + 1) * 32 - count * 32 = 32 := by omega
    rw [range_succ, foldl_append, foldl_cons, foldl_nil,
      lookup_getSnapshotContent, ih, hsplit, hstep, map_append]
    exact ite_mem_append

/-- All rows are read. -/
theorem lookup_readContents (docId : Bytes) : (readContents stored rows contents).lookup docId =
    if docId ∈ rows.map (·.docId) then (stored docId).or (contents.lookup docId)
    else contents.lookup docId := by
  have hleft : rows.length - rows.length % 32 = rows.length / 32 * 32 := by omega
  have hrest : (rows.drop (rows.length / 32 * 32)).take
      (rows.length - rows.length / 32 * 32) = rows.drop (rows.length / 32 * 32) :=
    take_of_length_le (by rw [length_drop])
  have hsplit := take_append_drop (rows.length / 32 * 32) rows
  simp only [readContents, lookup_getSnapshotContent, lookup_batches, hleft, hrest]
  conv_rhs => rw [← hsplit, map_append]
  exact ite_mem_append

theorem eq_empty_of_lookup {contents : HashStringMap} (h : ∀ docId, contents.lookup docId = none) :
    contents = ∅ := by
  apply AList.ext
  rw [AList.empty_entries, eq_nil_iff_forall_not_mem]
  rintro ⟨docId, content⟩ hmem
  have hlookup := AList.mem_lookup_iff.mpr hmem
  rw [h docId] at hlookup
  cases hlookup

/-- Where the map or the rows have a snapshot, nothing is read. -/
theorem lookup_loadContents_of_some {docId : Bytes} {content : Bytes} (docId' : Bytes)
    (h : (contents.lookup docId).or (firstEmbedded rows docId) = some content) :
    (loadContents stored rows contents).lookup docId' =
      (contents.lookup docId').or (firstEmbedded rows docId') := by
  rw [loadContents, if_neg, lookup_insertEmbedded]
  intro hempty
  have hnone : insertEmbedded rows contents = ∅ := AList.ext (isEmpty_iff.mp hempty)
  have hsome := (@lookup_insertEmbedded D rows contents docId).trans h
  rw [hnone, AList.lookup_empty] at hsome
  cases hsome

theorem extend_eq_nil {row : IndexInfo D} (hrow : row ∈ rows)
    (h : firstEmbedded rows row.docId = none) : row.extend = [] := by
  have hfind := List.find?_eq_none.mp (Option.map_eq_none_iff.mp h) row hrow
  simpa using hfind

theorem firstEmbedded_eq_none (h : ∀ row ∈ rows, row.extend = []) (docId : Bytes) :
    firstEmbedded rows docId = none := by
  rw [firstEmbedded, Option.map_eq_none_iff, List.find?_eq_none]
  intro row hrow
  simp [h row hrow]

/-- Where they have none, the storage is read. -/
theorem lookup_loadContents_of_empty {row : IndexInfo D} (hrow : row ∈ rows)
    (h : ∀ row ∈ rows, row.extend = []) :
    (loadContents stored rows ∅).lookup row.docId = stored row.docId := by
  have hempty : insertEmbedded rows ∅ = ∅ := by
    refine eq_empty_of_lookup fun docId => ?_
    rw [lookup_insertEmbedded, firstEmbedded_eq_none h, AList.lookup_empty]
    rfl
  rw [loadContents, hempty]
  simp only [AList.empty_entries, isEmpty_nil, if_true]
  rw [lookup_readContents, if_pos (mem_map_of_mem hrow), AList.lookup_empty, or_none]

/-- The content that is looked at for a row. -/
def contentOf (stored : Bytes → Option Bytes) (rows : List (IndexInfo D)) (contents : HashStringMap)
    (row : IndexInfo D) : Bytes :=
  ((loadContents stored rows contents).lookup row.docId).getD []

theorem contentOf_eq_snapshot_iff :
    (∀ row ∈ rows, contentOf stored rows contents row = row.snapshot stored) ↔
      Found stored contents rows := by
  constructor
  · intro h
    have hsome (row) (hrow : row ∈ rows) (content : Bytes)
        (heq : (contents.lookup row.docId).or (firstEmbedded rows row.docId) = some content) :
        content = row.snapshot stored := by
      rw [← h row hrow, contentOf, lookup_loadContents_of_some _ heq, heq, getD_some]
    refine ⟨fun row hrow content hc => hsome row hrow content (by rw [hc, some_or]),
      fun row hrow hnone content hc => hsome row hrow content (by rw [hnone, hc, none_or]),
      fun row hrow hnone hfirst hne => ?_⟩
    -- another snapshot in the map or in the rows would keep this one from being read
    have hall : ∀ docId, (contents.lookup docId).or (firstEmbedded rows docId) = none := by
      intro docId
      by_contra hother
      obtain ⟨content, hcontent⟩ := Option.ne_none_iff_exists'.mp hother
      have heq := h row hrow
      rw [contentOf, lookup_loadContents_of_some _ hcontent, hnone, hfirst] at heq
      exact hne heq.symm
    exact ⟨eq_empty_of_lookup fun docId => (or_eq_none_iff.mp (hall docId)).1,
      fun row hrow => extend_eq_nil hrow (or_eq_none_iff.mp (hall row.docId)).2⟩
  · intro h row hrow
    cases hc : contents.lookup row.docId with
    | some content =>
      rw [contentOf, lookup_loadContents_of_some _ (by rw [hc, some_or]), hc]
      exact h.cached row hrow content hc
    | none =>
      cases hf : firstEmbedded rows row.docId with
      | some content =>
        rw [contentOf, lookup_loadContents_of_some _ (by rw [hc, hf, none_or]), hc, hf]
        exact h.embedded row hrow hc content hf
      | none =>
        have hread (hempty : contents = ∅) (hext : ∀ row ∈ rows, row.extend = []) :
            contentOf stored rows contents row = row.snapshot stored := by
          rw [contentOf, hempty, lookup_loadContents_of_empty hrow hext, IndexInfo.snapshot,
            if_neg (not_not.mpr (hext row hrow))]
        by_cases hsnapshot : row.snapshot stored = []
        · by_cases hall : ∀ docId, (contents.lookup docId).or (firstEmbedded rows docId) = none
          · exact hread (eq_empty_of_lookup fun docId => (or_eq_none_iff.mp (hall docId)).1)
              fun row hrow => extend_eq_nil hrow (or_eq_none_iff.mp (hall row.docId)).2
          · obtain ⟨docId, hother⟩ := not_forall.mp hall
            obtain ⟨content, hcontent⟩ := Option.ne_none_iff_exists'.mp hother
            rw [contentOf, lookup_loadContents_of_some _ hcontent, hc, hf, hsnapshot]
            rfl
        · obtain ⟨hempty, hext⟩ := h.read row hrow hc hf hsnapshot
          exact hread hempty hext

/-! ## The rows kept -/

/-- The rows whose content is in range. -/
def select (inRange : Bytes → Option D) (content : IndexInfo D → Bytes)
    (rows : List (IndexInfo D)) : List (IndexInfo D) :=
  rows.filterMap fun row =>
    if content row = [] then none
    else (inRange (content row)).map fun dis => { row with distance := dis }

/-- The distance of a content. -/
def distanceOf (inRange : Bytes → Option D) (content : Bytes) : Option D :=
  if content = [] then none else inRange content

theorem addDistance_eq (inRange : Bytes → Option D) (distances : HashDoubleMap D)
    (doc : Σ _ : Bytes, Bytes) : ∃ distances',
      addDistance (fun content => some (inRange content)) distances doc = some distances' ∧
      ∀ docId, distances'.lookup docId = if docId = doc.1 then
        (distanceOf inRange doc.2).or (distances.lookup docId) else distances.lookup docId := by
  by_cases hempty : doc.2 = []
  · refine ⟨distances, by rw [addDistance, if_pos hempty], fun docId => ?_⟩
    rw [distanceOf, if_pos hempty, none_or, ite_self]
  · cases hin : inRange doc.2 with
    | none =>
      refine ⟨distances, by rw [addDistance, if_neg hempty, hin]; rfl, fun docId => ?_⟩
      rw [distanceOf, if_neg hempty, hin, none_or, ite_self]
    | some dis =>
      refine ⟨distances.insert doc.1 dis, by rw [addDistance, if_neg hempty, hin]; rfl,
        fun docId => ?_⟩
      rw [distanceOf, if_neg hempty, hin, some_or]
      split
      next heq => rw [heq, AList.lookup_insert]
      next hne => exact AList.lookup_insert_ne hne

theorem foldlM_addDistance (inRange : Bytes → Option D) {docs : List (Σ _ : Bytes, Bytes)}
    (hnodup : docs.NodupKeys) (distances : HashDoubleMap D) : ∃ distances',
      docs.foldlM (addDistance fun content => some (inRange content)) distances = some distances' ∧
      ∀ docId, distances'.lookup docId =
        ((docs.dlookup docId).bind (distanceOf inRange)).or (distances.lookup docId) := by
  induction docs generalizing distances with
  | nil => exact ⟨distances, rfl, fun _ => rfl⟩
  | cons doc docs ih =>
    obtain ⟨hnot, hnodup⟩ := nodupKeys_cons.mp hnodup
    obtain ⟨distances₁, hstep, hlookup₁⟩ := addDistance_eq inRange distances doc
    obtain ⟨distances', hrest, hlookup⟩ := ih hnodup distances₁
    refine ⟨distances', by rw [foldlM_cons, hstep]; exact hrest, fun docId => ?_⟩
    rw [hlookup, hlookup₁]
    by_cases hdoc : docId = doc.1
    · subst hdoc
      rw [if_pos rfl, dlookup_eq_none.mpr hnot, Option.bind_none, none_or]
      exact congrArg (Option.or · _) (by rw [show doc = ⟨doc.1, doc.2⟩ from rfl,
        dlookup_cons_eq, bind_some])
    · rw [if_neg hdoc, show doc = ⟨doc.1, doc.2⟩ from rfl, dlookup_cons_ne _ _ hdoc]

theorem getGisDistance_eq (inRange : Bytes → Option D) (contents : HashStringMap) :
    ∃ distances, getGisDistance (fun content => some (inRange content)) contents = some distances ∧
      ∀ docId, distances.lookup docId =
        (contents.lookup docId).bind (distanceOf inRange) := by
  obtain ⟨distances, heq, hlookup⟩ := foldlM_addDistance inRange contents.nodupKeys ∅
  refine ⟨distances, heq, fun docId => (hlookup docId).trans ?_⟩
  rw [AList.lookup_empty, or_none]
  rfl

theorem flatMap_single (l : List (Σ _ : Bytes, D)) (hnodup : l.NodupKeys) (row : IndexInfo D) :
    (l.flatMap fun entry =>
      if entry.1 = row.docId then [{ row with distance := entry.2 }] else []) =
      ((l.dlookup row.docId).map fun dis => { row with distance := dis }).toList := by
  induction l with
  | nil => rfl
  | cons entry l ih =>
    obtain ⟨hnot, hnodup⟩ := nodupKeys_cons.mp hnodup
    rw [flatMap_cons, ih hnodup]
    by_cases hdoc : entry.1 = row.docId
    · rw [if_pos hdoc, ← hdoc, dlookup_eq_none.mpr hnot, show entry = ⟨entry.1, entry.2⟩ from rfl,
        dlookup_cons_eq]
      rfl
    · rw [if_neg hdoc, show entry = ⟨entry.1, entry.2⟩ from rfl, dlookup_cons_ne _ _ (Ne.symm hdoc)]
      rfl

/-- Going through the documents in range and then through the rows is as good as looking up each
row's document. -/
theorem flatMap_rows_perm (distances : HashDoubleMap D) (rows : List (IndexInfo D)) :
    (distances.entries.flatMap fun entry =>
      (rows.filter fun row => entry.1 = row.docId).map fun row =>
        { row with distance := entry.2 }).Perm
      (rows.filterMap fun row =>
        (distances.lookup row.docId).map fun dis => { row with distance := dis }) := by
  induction rows with
  | nil => simp
  | cons row rows ih =>
    have hcons : ∀ entry : Σ _ : Bytes, D,
        (((row :: rows).filter fun row => entry.1 = row.docId).map fun row =>
          { row with distance := entry.2 }) =
        (if entry.1 = row.docId then [{ row with distance := entry.2 }] else []) ++
          (rows.filter fun row => entry.1 = row.docId).map fun row =>
            { row with distance := entry.2 } := by
      intro entry
      rw [filter_cons]
      by_cases hdoc : entry.1 = row.docId <;> simp [hdoc]
    simp only [hcons]
    refine (flatMap_append_perm _ _ _).symm.trans ?_
    rw [flatMap_single _ distances.nodupKeys]
    refine (List.Perm.append_left _ ih).trans (.of_eq ?_)
    rw [filterMap_cons, AList.lookup]
    cases distances.entries.dlookup row.docId <;> rfl

/-- The clause keeps the rows whose content in the map is in range. -/
theorem getDocContent_perm (inRange : Bytes → Option D) (iteration : Iteration D) :
    let out := getDocContent stored (fun content => some (inRange content)) iteration rows contents
    out.1 = true ∧ out.2.1.Perm (select inRange (contentOf stored rows contents) rows) := by
  obtain ⟨distances, heq, hlookup⟩ :=
    getGisDistance_eq inRange (loadContents stored rows contents)
  simp only [getDocContent, heq]
  refine ⟨trivial, ((iteration.perm _).flatMap_right _).trans ((flatMap_rows_perm _ rows).trans
    (.of_eq (filterMap_congr fun row _ => ?_)))⟩
  rw [hlookup, contentOf]
  cases (loadContents stored rows contents).lookup row.docId with
  | none => rfl
  | some content =>
    rw [bind_some, distanceOf, getD_some]
    split <;> rfl

/-- A content that is there is the same where the rows kept are always the same. -/
theorem eq_of_select_subset {f g : IndexInfo D → Bytes}
    (hg : ∀ row row' : IndexInfo D, row.docId = row'.docId → row.extend = row'.extend →
      g row = g row')
    (h : ∀ inRange, select inRange f rows ⊆ select inRange g rows) {row : IndexInfo D}
    (hrow : row ∈ rows) (hne : f row ≠ []) : f row = g row := by
  have hmem : row ∈ select (fun content => if content = f row then some row.distance else none)
      f rows := by
    refine mem_filterMap.mpr ⟨row, hrow, ?_⟩
    rw [if_neg hne]
    exact congrArg (Option.map _) (if_pos rfl)
  obtain ⟨row', -, hrow'⟩ := mem_filterMap.mp (h _ hmem)
  split at hrow'
  · cases hrow'
  · obtain ⟨dis, hdis, heq⟩ := Option.map_eq_some_iff.mp hrow'
    split at hdis
    next hsame =>
      rw [← hsame]
      subst heq
      exact hg _ _ rfl rfl
    next => cases hdis

theorem contentOf_congr (row row' : IndexInfo D) (h : row.docId = row'.docId) :
    contentOf stored rows contents row = contentOf stored rows contents row' := by
  rw [contentOf, contentOf, h]

theorem IndexInfo.snapshot_congr (row row' : IndexInfo D) (hdoc : row.docId = row'.docId)
    (hext : row.extend = row'.extend) : row.snapshot stored = row'.snapshot stored := by
  rw [snapshot, snapshot, hdoc, hext]

theorem select_perm_iff : (∀ inRange, (select inRange (contentOf stored rows contents) rows).Perm
      (rowsInRange stored inRange rows)) ↔ Found stored contents rows := by
  rw [← contentOf_eq_snapshot_iff]
  constructor
  · intro h row hrow
    by_cases hne : contentOf stored rows contents row = []
    · by_contra hother
      have hsnapshot : row.snapshot stored ≠ [] := fun h => hother (hne.trans h.symm)
      exact hother (eq_of_select_subset (fun row row' hdoc _ => contentOf_congr row row' hdoc)
        (fun inRange => (h inRange).symm.subset) hrow hsnapshot).symm
    · exact eq_of_select_subset IndexInfo.snapshot_congr
        (fun inRange => (h inRange).subset) hrow hne
  · intro h inRange
    refine .of_eq (filterMap_congr fun row hrow => ?_)
    rw [h row hrow]

/-- The filter keeps the rows in range where the snapshots of the rows are found. -/
theorem keepsInRange_iff (stored : Bytes → Option Bytes) (clauses : List (List (IndexInfo D)))
    (rows : List (IndexInfo D)) : KeepsInRange stored clauses rows ↔
      Found stored (contentsAfter stored clauses) rows ∧ Found stored ∅ rows := by
  rw [← select_perm_iff, ← select_perm_iff]
  constructor
  · intro h
    refine ⟨fun inRange => ?_, fun inRange => ?_⟩
    · obtain ⟨-, hperm⟩ := h inRange ⟨id, fun _ => .rfl⟩ _ mem_cons_self
      exact (getDocContent_perm inRange _).2.symm.trans hperm
    · obtain ⟨-, hperm⟩ := h inRange ⟨id, fun _ => .rfl⟩ ∅ (mem_cons_of_mem _ mem_cons_self)
      exact (getDocContent_perm inRange _).2.symm.trans hperm
  · rintro ⟨hafter, halone⟩ inRange iteration contents hmem
    obtain ⟨hok, hperm⟩ := @getDocContent_perm D stored rows contents inRange iteration
    refine ⟨hok, hperm.trans ?_⟩
    rcases mem_cons.mp hmem with rfl | hmem
    · exact hafter inRange
    · rw [mem_singleton.mp hmem]
      exact halone inRange

/-- A row that embeds its snapshot keeps the other document's from being read. -/
theorem not_keepsInRange_mixed :
    ¬KeepsInRange (fun docId => if docId = [50] then some [66] else none) []
      [⟨[49], [65], ()⟩, ⟨[50], [], ()⟩] := by
  intro h
  obtain ⟨-, hperm⟩ := h (fun _ => some ()) ⟨id, fun _ => .rfl⟩ ∅
    (mem_cons_of_mem _ mem_cons_self)
  exact absurd hperm.length_eq (by decide)

end ISearch.DocManager
