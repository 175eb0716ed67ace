import ISearch.BufferProcess.Transations

/-!
# Requests and replies keep the invariant

All of them do, whatever the mode of the cache, except an asynchronous update of volatile fields:
it sets the flag of the rows it writes but does not mark the node (`VolatileRequest`).
-/

namespace ISearch.BufferProcess

variable {K R : Type} [DecidableEq K]

namespace St

variable {cfg : Config} {t : Task K R} {s : St K R}

/-! ## Requests -/

theorem inv_bufferSyncInsert (h : s.pool.Inv) : (s.bufferSyncInsert cfg t).2.pool.Inv := by
  unfold bufferSyncInsert
  dsimp only
  split_ifs
  · exact h
  · rwa [pool_transationFindNode]
  · apply inv_bufferInsertRow
    · rwa [pool_transationFindNode]
    · exact fun ha => absurd ha Bool.false_ne_true

theorem inv_bufferSyncUpdate (h : s.pool.Inv) (hkey : s.tx.keyDirty = false) :
    (s.bufferSyncUpdate cfg t).2.pool.Inv := by
  have hfind := inv_transationFindNode cfg t h
  have hupdate : ((s.transationFindNode cfg t).bufferUpdateRows cfg t false).2.pool.Inv :=
    inv_bufferUpdateRows hfind (keyDirtyOk_transationFindNode hkey)
      fun ha => absurd ha Bool.false_ne_true
  unfold bufferSyncUpdate
  split
  · exact h
  split
  · exact h
  dsimp only
  split
  · exact hfind
  · split
    · exact hupdate
    · exact hfind
  · exact hupdate

theorem inv_bufferSyncReplace (h : s.pool.Inv) (hkey : s.tx.keyDirty = false) :
    (s.bufferSyncReplace cfg t).2.pool.Inv := by
  have hfind := inv_transationFindNode cfg t h
  unfold bufferSyncReplace
  dsimp only
  split_ifs
  · exact h
  · split
    · exact hfind
    · exact inv_bufferInsertRow hfind fun ha => absurd ha Bool.false_ne_true
    · exact inv_bufferReplaceRows hfind (keyDirtyOk_transationFindNode hkey)
        fun ha => absurd ha Bool.false_ne_true

theorem inv_bufferSyncDelete (h : s.pool.Inv) : (s.bufferSyncDelete cfg t).2.pool.Inv := by
  unfold bufferSyncDelete
  dsimp only
  split_ifs
  · apply inv_bufferDeleteRows
    rwa [pool_transationFindNode]
  · rwa [pool_transationFindNode]

theorem inv_bufferNodbInsert (h : s.pool.Inv) : (s.bufferNodbInsert cfg t).2.pool.Inv := by
  have hfind := inv_transationFindNode cfg t h
  unfold bufferNodbInsert
  by_cases hreplace : cfg.replaceEmpty = true
  · rw [if_pos hreplace]
    exact h
  rw [if_neg hreplace]
  obtain ⟨s', hs', h'⟩ : ∃ s', s' = (if (s.transationFindNode cfg t).tx.nodeStat = .present &&
      t.expired then (s.transationFindNode cfg t).purgeNodeEverything
      else s.transationFindNode cfg t) ∧ s'.pool.Inv := by
    refine ⟨_, rfl, ?_⟩
    split_ifs
    · exact inv_purgeNodeEverything hfind
    · exact hfind
  dsimp only
  rw [← hs']
  split_ifs
  · exact h'
  · exact h'
  · exact inv_bufferInsertRow h' fun ha => absurd ha Bool.false_ne_true

theorem inv_bufferNodbUpdate (h : s.pool.Inv) (hkey : s.tx.keyDirty = false) :
    (s.bufferNodbUpdate cfg t).2.pool.Inv := by
  have hfind := inv_transationFindNode cfg t h
  unfold bufferNodbUpdate
  dsimp only
  split
  · exact hfind
  split
  next s' heq =>
    obtain rfl := checkAndExpire_eq_next heq
    split
    · exact hfind
    · exact inv_bufferUpdateRows hfind (keyDirtyOk_transationFindNode hkey)
        fun ha => absurd ha Bool.false_ne_true
  next ret s' hret heq =>
    have hexpire := inv_checkAndExpire (t := t) hfind
    rwa [heq] at hexpire

theorem inv_bufferNodbReplace (h : s.pool.Inv) (hkey : s.tx.keyDirty = false) :
    (s.bufferNodbReplace cfg t).2.pool.Inv := by
  have hfind := inv_transationFindNode cfg t h
  unfold bufferNodbReplace
  dsimp only
  split_ifs
  · exact hfind
  · exact inv_bufferInsertRow hfind fun ha => absurd ha Bool.false_ne_true
  · split
    next s' heq =>
      obtain rfl := checkAndExpire_eq_next heq
      exact inv_bufferReplaceRows hfind (keyDirtyOk_transationFindNode hkey)
        fun ha => absurd ha Bool.false_ne_true
    next ret s' hret heq =>
      have hexpire := inv_checkAndExpire (t := t) hfind
      rw [heq] at hexpire
      exact inv_bufferInsertRow hexpire fun ha => absurd ha Bool.false_ne_true

theorem inv_bufferAsyncInsert (h : s.pool.Inv) (hkey : s.tx.keyDirty = false) :
    (s.bufferAsyncInsert cfg t).2.pool.Inv := by
  have hfind := inv_transationFindNode cfg t h
  have hinsert : ((s.transationFindNode cfg t).bufferInsertRow cfg t true).2.pool.Inv :=
    inv_bufferInsertRow hfind fun _ => keyDirtyOk_transationFindNode hkey
  unfold bufferAsyncInsert
  split
  · exact h
  dsimp only
  split
  case h_1 | h_2 =>
    split
    · exact hfind
    · exact hinsert
  case h_3 =>
    split
    · exact hfind
    · split
      · exact hfind
      · exact hinsert

theorem inv_bufferAsyncReplace (h : s.pool.Inv) (hkey : s.tx.keyDirty = false)
    (hblack : t.blackHole = false) : (s.bufferAsyncReplace cfg t).2.pool.Inv := by
  have hfind := inv_transationFindNode cfg t h
  have hok : (s.transationFindNode cfg t).KeyDirtyOk := keyDirtyOk_transationFindNode hkey
  unfold bufferAsyncReplace
  dsimp only
  split <;> split
  · exact hfind
  · exact inv_bufferInsertRow hfind fun _ => hok
  · exact hfind
  · exact inv_bufferInsertRow hfind fun _ => hok
  · exact hfind
  · exact inv_bufferReplaceRows hfind hok fun _ => hblack

/-- An update request that is processed in the cache and sets the flag of rows in a node that it
does not mark. -/
def VolatileRequest (cfg : Config) (t : Task K R) (s : St K R) : Prop :=
  cfg.updateMode = .async ∧ ((s.transationFindNode cfg t).tx.nodeStat = .missing → cfg.fullMode) ∧
    (s.transationFindNode cfg t).VolatileUpdateRows cfg t

theorem inv_bufferAsyncUpdate (h : s.pool.Inv) (hkey : s.tx.keyDirty = false)
    (hsync : cfg.updateMode ≠ .sync) (hsafe : ¬ s.VolatileRequest cfg t) :
    (s.bufferAsyncUpdate cfg t).2.pool.Inv := by
  have hfind := inv_transationFindNode cfg t h
  have hupdate (hflush : ¬ cfg.updateMode = .flush)
      (hfull : (s.transationFindNode cfg t).tx.nodeStat = .missing → cfg.fullMode) :
      ((s.transationFindNode cfg t).bufferUpdateRows cfg t true).2.pool.Inv := by
    apply inv_bufferUpdateRows hfind (keyDirtyOk_transationFindNode hkey)
    intro _ hvol
    cases hmode : cfg.updateMode with
    | sync => exact hsync hmode
    | flush => exact hflush hmode
    | async => exact hsafe ⟨hmode, hfull, hvol⟩
  unfold bufferAsyncUpdate
  dsimp only
  split
  next hstat =>
    by_cases hflush : cfg.updateMode = .flush
    · split
      · exact hfind
      next hdirty =>
        -- in flush mode only a node that is dirty already is updated
        have hd : (s.transationFindNode cfg t).isDirty = true := by simpa [hflush] using hdirty
        exact inv_bufferUpdateRows hfind (keyDirtyOk_transationFindNode hkey)
          fun _ => not_volatileUpdateRows_of_isDirty hd
    · rw [if_neg fun hc => hflush hc.1]
      exact hupdate hflush fun hm => by rw [hstat] at hm; cases hm
  next hstat =>
    split
    · exact hfind
    next hmissing =>
      split
      · exact hfind
      · split
        · exact hfind
        next hflush => exact hupdate hflush fun hm => by simpa [hm] using hmissing

/-! ## Dispatch -/

theorem inv_bufferProcessRequest (h : s.pool.Inv) (hkey : s.tx.keyDirty = false)
    (hblack : t.blackHole = false) {cmd : Cmd}
    (hsafe : cmd = .update → ¬ s.VolatileRequest cfg t) :
    (s.bufferProcessRequest cfg t cmd).2.pool.Inv := by
  cases cmd with
  | get =>
    rw [bufferProcessRequest]
    split
    · exact h
    split
    · exact inv_bufferPurgeData h
    · exact inv_bufferGetData h
  | batchGet => exact inv_bufferBatchGetData h
  | insert =>
    rw [bufferProcessRequest]
    split
    · exact inv_bufferAsyncInsert h hkey
    · unfold bufferSyncInsertPrecheck
      dsimp only
      split_ifs
      · exact h
      · rwa [pool_transationFindNode]
      · rwa [pool_transationFindNode]
      · exact h
  | update =>
    rw [bufferProcessRequest]
    split
    next hsync => exact inv_bufferAsyncUpdate h hkey hsync (hsafe rfl)
    · exact h
  | delete =>
    rw [bufferProcessRequest]
    split
    · split
      · exact h
      have hflush : (s.bufferFlushDataBeforeDelete cfg t).2.pool.Inv :=
        inv_bufferFlushDataBeforeDelete h
      split
      next heq => rwa [heq] at hflush
      next heq => rwa [heq] at hflush
    · exact h
  | purge => exact inv_bufferPurgeData h
  | flush =>
    rw [bufferProcessRequest]
    split
    · exact inv_bufferFlushData h
    · exact h
  | replace =>
    rw [bufferProcessRequest]
    split
    · exact h
    split
    · exact inv_bufferAsyncReplace h hkey hblack
    · exact h

theorem inv_bufferProcessNodb (h : s.pool.Inv) (hkey : s.tx.keyDirty = false) (cmd : Cmd) :
    (s.bufferProcessNodb cfg t cmd).2.pool.Inv := by
  cases cmd with
  | get =>
    rw [bufferProcessNodb]
    split
    · exact h
    · exact inv_bufferGetData h
  | batchGet => exact inv_bufferBatchGetData h
  | insert => exact inv_bufferNodbInsert h
  | update => exact inv_bufferNodbUpdate h hkey
  | delete => exact inv_bufferSyncDelete h
  | purge => exact inv_bufferPurgeData h
  | flush => exact h
  | replace =>
    rw [bufferProcessNodb]
    split
    · exact h
    · exact inv_bufferNodbReplace h hkey

theorem inv_bufferProcessReply (h : s.pool.Inv) (hkey : s.tx.keyDirty = false) (cmd : Cmd) :
    (s.bufferProcessReply cfg t cmd).2.pool.Inv := by
  cases cmd with
  | get =>
    rw [bufferProcessReply]
    split
    · exact h
    · exact inv_bufferReplaceResult h
  | insert =>
    rw [bufferProcessReply]
    split
    · exact inv_bufferNodbInsert h
    split
    · exact inv_bufferPurgeData h
    · exact inv_bufferSyncInsert h
  | update =>
    rw [bufferProcessReply]
    split
    · exact inv_bufferNodbUpdate h hkey
    split
    · exact inv_bufferPurgeData h
    · exact inv_bufferSyncUpdate h hkey
  | delete => exact inv_bufferSyncDelete h
  | replace =>
    rw [bufferProcessReply]
    split
    · exact inv_bufferNodbReplace h hkey
    · exact inv_bufferSyncReplace h hkey
  | batchGet | purge | flush => exact h

theorem inv_bufferProcessError (h : s.pool.Inv) (hkey : s.tx.keyDirty = false)
    (duplicateEntry unknown : Bool) (cmd : Cmd) :
    (s.bufferProcessError cfg t duplicateEntry unknown cmd).2.pool.Inv := by
  cases cmd with
  | insert =>
    rw [bufferProcessError]
    split
    · exact inv_bufferSyncInsert h
    split
    · exact inv_bufferPurgeData h
    · exact h
  | delete =>
    rw [bufferProcessError]
    split
    · exact inv_bufferPurgeData h
    · exact h
  | update =>
    rw [bufferProcessError]
    split
    · exact inv_bufferSyncUpdate h hkey
    split
    · exact inv_bufferPurgeData h
    · exact h
  | get | batchGet | purge | flush | replace => exact h

end St

end ISearch.BufferProcess
