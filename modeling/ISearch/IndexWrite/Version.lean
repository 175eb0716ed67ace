import ISearch.IndexWrite.Rollback

/-!
# The version of a document

As long as requests are handled one at a time the snapshot of a document has at most one row. Its
`trans_version` is the `doc_version` or, after a rollback that could not give a version back, more.
A request moves it from there to the next version, and to the `doc_version` when it publishes.
-/

namespace ISearch.IndexWrite

variable {C : Type} {s s' : Store C} {doc : Doc} {n tv v : Nat}

/-- The `doc_version` of the snapshot, 0 when there is none. -/
def Store.published (s : Store C) (doc : Doc) : Nat :=
  ((s.snapshot doc).getLast?.map (·.docVersion)).getD 0

/-- The snapshot has at most one row, with these versions. -/
inductive SnapshotAt (s : Store C) (doc : Doc) : Nat → Nat → Prop where
  | none (h : s.snapshot doc = []) : SnapshotAt s doc 0 0
  | row {n tv : Nat} {content : Option C} (h : s.snapshot doc = [⟨n, tv, content⟩])
    (hle : n ≤ tv) (hpos : 0 < tv) : SnapshotAt s doc n tv

namespace SnapshotAt

theorem le (h : SnapshotAt s doc n tv) : n ≤ tv := by
  cases h with
  | none h => exact Nat.le_refl 0
  | row h hle hpos => exact hle

theorem published (h : SnapshotAt s doc n tv) : s.published doc = n := by
  cases h with
  | none h => simp [Store.published, h]
  | row h hle hpos => simp [Store.published, h]

theorem self (h : SnapshotAt s doc n tv) : SnapshotAt s doc (s.published doc) tv := by
  rwa [h.published]

theorem nextVersion (h : SnapshotAt s doc n tv) : Manager.nextVersion s doc = tv + 1 := by
  cases h with
  | none h => simp [Manager.nextVersion, Store.getSnapshotActiveDoc, h]
  | row h hle hpos => simp [Manager.nextVersion, Store.getSnapshotActiveDoc, h]

theorem congr (h : SnapshotAt s doc n tv) (heq : s'.snapshot doc = s.snapshot doc) :
    SnapshotAt s' doc n tv := by
  cases h with
  | none h => exact .none (heq.trans h)
  | row h hle hpos => exact .row (heq.trans h) hle hpos

theorem of_setSnapshot {content : Option C} (hle : n ≤ tv) (hpos : 0 < tv) :
    SnapshotAt (s.setSnapshot doc [⟨n, tv, content⟩]) doc n tv :=
  .row (Store.snapshot_setSnapshot _) hle hpos

theorem reserve (h : SnapshotAt s doc n tv) (hpos : 0 < tv) :
    ∃ rows, s.updateSnapshotVersion doc (tv + 1) = some (s.setSnapshot doc rows, 1) ∧
      SnapshotAt (s.setSnapshot doc rows) doc n (tv + 1) := by
  cases h with
  | none h => exact absurd hpos (Nat.lt_irrefl 0)
  | @row n tv content h hle hpos =>
    refine ⟨[⟨n, tv + 1, content⟩], ?_, of_setSnapshot (Nat.le_succ_of_le hle) (Nat.succ_pos tv)⟩
    simp [Store.updateSnapshotVersion, Store.updateSnapshot, updateRows, SnapshotRow.key, h]

theorem insert (h : SnapshotAt s doc n 0) :
    ∃ rows, s.insertSnapshotVersion doc 1 = some (s.setSnapshot doc rows) ∧
      SnapshotAt (s.setSnapshot doc rows) doc n 1 := by
  cases h with
  | none h =>
    refine ⟨[⟨0, 1, .none⟩], ?_, of_setSnapshot (Nat.zero_le 1) Nat.one_pos⟩
    simp [Store.insertSnapshotVersion, h]
  | row h hle hpos => exact absurd hpos (Nat.lt_irrefl 0)

/-- The update that publishes a reserved version. -/
theorem publish (h : SnapshotAt s doc n v) (hlt : n < v) (content : C) :
    ∃ rows, s.updateSnapshotContent doc content v = some (s.setSnapshot doc rows, 1) ∧
      SnapshotAt (s.setSnapshot doc rows) doc v v := by
  cases h with
  | none h => exact absurd hlt (Nat.lt_irrefl 0)
  | @row n v content' h hle hpos =>
    refine ⟨[⟨v, v, some content⟩], ?_, of_setSnapshot (Nat.le_refl v) hpos⟩
    simp [Store.updateSnapshotContent, Store.updateSnapshot, updateRows, SnapshotRow.key, h,
      Nat.ne_of_gt hlt]

theorem giveBack (h : SnapshotAt s doc n (tv + 1)) (hle : n ≤ tv) (hpos : 0 < tv) :
    ∃ rows, s.updateSnapshotBack doc (tv + 1) = some (s.setSnapshot doc rows, 1) ∧
      SnapshotAt (s.setSnapshot doc rows) doc n tv := by
  cases h with
  | @row n v content h hle' hpos' =>
    refine ⟨[⟨n, tv, content⟩], ?_, of_setSnapshot hle hpos⟩
    simp [Store.updateSnapshotBack, Store.updateSnapshot, updateRows, SnapshotRow.key, h]

end SnapshotAt

namespace Manager

variable {t : AddRequest C} {m : Manager C}

/-- The version is reserved unless a storage request fails. -/
theorem updateTransVersion_of (h : SnapshotAt m.store t.doc n tv)
    (hget : t.faults.getSnapshot = false) (hreserve : t.faults.reserve = false) :
    ∃ rows, m.updateTransVersion t = (.ok, tv + 1, m.store.setSnapshot t.doc rows) ∧
      SnapshotAt (m.store.setSnapshot t.doc rows) t.doc n (tv + 1) := by
  unfold updateTransVersion
  rw [hget, if_neg Bool.false_ne_true, h.nextVersion, hreserve]
  rcases Nat.eq_zero_or_pos tv with rfl | hpos
  · obtain ⟨rows, hinsert, hat⟩ := h.insert
    refine ⟨rows, ?_, hat⟩
    simp [hinsert]
  · obtain ⟨rows, hupdate, hat⟩ := h.reserve hpos
    refine ⟨rows, ?_, hat⟩
    simp [hupdate, Nat.ne_of_gt hpos]

theorem updateTransVersion_ne (h : t.faults.getSnapshot = true ∨ t.faults.reserve = true) :
    (m.updateTransVersion t).1 ≠ .ok := by
  unfold updateTransVersion
  by_cases hget : t.faults.getSnapshot = true
  · rw [if_pos hget]
    exact RetCode.noConfusion
  · rw [if_neg hget, h.resolve_left hget]
    dsimp only
    split <;> exact RetCode.noConfusion

/-- The version is given back, unless the storage request fails. -/
theorem rollBackSnapshot_of (h : SnapshotAt s t.doc n (tv + 1)) (hle : n ≤ tv) :
    ∃ rows tv', rollBackSnapshot t (tv + 1) s = s.setSnapshot t.doc rows ∧
      SnapshotAt (s.setSnapshot t.doc rows) t.doc n tv' := by
  unfold rollBackSnapshot
  split
  · refine ⟨s.snapshot t.doc, tv + 1, ?_, h.congr (Store.snapshot_setSnapshot _)⟩
    simp [Store.setSnapshot]
  rcases Nat.eq_zero_or_pos tv with rfl | hpos
  · obtain rfl : n = 0 := Nat.le_zero.mp hle
    exact ⟨[], 0, if_pos rfl, .none (Store.snapshot_setSnapshot _)⟩
  · obtain ⟨rows, hback, hat⟩ := h.giveBack hle hpos
    refine ⟨rows, tv, ?_, hat⟩
    rw [if_neg (by omega), hback]

end Manager

end ISearch.IndexWrite
