import ISearch.BufferProcess.Run

/-!
# Keys that stay out of the cache

A request puts no key but its own into the cache, and only the flushes leave a request unanswered.
-/

namespace ISearch.BufferProcess

variable {K R : Type}

/-! ## Keys that are not in the cache -/

namespace Pool

variable {p p' : Pool K R} {id : Nat} {k : K}

@[simp] theorem hash_setNode (n : Option (Node K R)) : (p.setNode id n).hash = p.hash := rfl

@[simp] theorem hash_setRows (rows : List (Row R)) : (p.setRows id rows).hash = p.hash := rfl

@[simp] theorem hash_mark (b : Bool) : (p.mark id b).hash = p.hash := rfl

@[simp] theorem hash_moveLru (l : Lru) : (p.moveLru id l).hash = p.hash := rfl

@[simp] theorem hash_purgeNode : (p.purgeNode id).hash k = (p.hash k).erase id := rfl

theorem foldl_purgeNode_hash (h : p.hash k = []) (ids : List Nat) :
    (ids.foldl purgeNode p).hash k = [] := by
  induction ids generalizing p with
  | nil => exact h
  | cons id ids ih => exact ih (by rw [hash_purgeNode, h]; rfl)

variable [DecidableEq K]

@[simp] theorem hash_setFilter (key : K) (b : Bool) : (p.setFilter key b).hash = p.hash := rfl

theorem hash_allocate {key : K} {freeNode : Option Nat} (hk : k ≠ key)
    (heq : p.allocate key freeNode = some (p', id)) : p'.hash k = p.hash k := by
  unfold allocate at heq
  split at heq
  · cases heq
  · split at heq
    · cases heq
    · cases heq
      exact Function.update_of_ne hk ..

end Pool

namespace St

variable {cfg : Config} {t : Task K R} {s s' : St K R} {k : K} {r : BufferResult × St K R}
  {P : Prop}

theorem hash_onNode {f : Pool K R → Nat → Pool K R} (hf : ∀ p id, (f p id).hash = p.hash) :
    (s.onNode f).pool.hash = s.pool.hash := by
  rw [onNode]
  split
  · rfl
  · exact hf _ _

@[simp] theorem hash_writeRows (rows : List (Row R)) : (s.writeRows rows).pool.hash = s.pool.hash :=
  hash_onNode fun _ _ => rfl

@[simp] theorem hash_transationUpdateLru (async : Bool) (level : Nat) :
    (s.transationUpdateLru async level).pool.hash = s.pool.hash := by
  unfold transationUpdateLru
  split_ifs
  · rfl
  · exact hash_onNode fun _ _ => rfl
  · rfl

@[simp] theorem hash_transationEnd : (s.transationEnd cfg).hash = s.pool.hash := by
  unfold transationEnd
  dsimp only
  split
  · split
    · exact hash_onNode fun _ _ => rfl
    · rfl
  · rfl

/-- The function answers, and under `P` it leaves `k` out of the cache where it was not in it. -/
structure Tame (P : Prop) (k : K) (s : St K R) (r : BufferResult × St K R) : Prop where
  answers : r.1 ≠ .pending
  absent : P → s.pool.hash k = [] → r.2.pool.hash k = []

theorem Tame.of_eq (hret : r.1 ≠ .pending) (hpool : r.2.pool.hash k = s.pool.hash k) :
    Tame P k s r :=
  ⟨hret, fun _ h => hpool.trans h⟩

theorem Tame.gone (ht : Tame True k s r) (h : s.pool.hash k = []) : r.2.pool.hash k = [] :=
  ht.absent trivial h

theorem Tame.congr (h : Tame P k s' r) (hpool : P → s'.pool.hash k = s.pool.hash k) :
    Tame P k s r :=
  ⟨h.answers, fun hP habsent => h.absent hP ((hpool hP).trans habsent)⟩

theorem absent_purgeNodeEverything (h : s.pool.hash k = []) : s.purgeNodeEverything.pool.hash k =
    [] := by
  rw [purgeNodeEverything, onNode]
  dsimp only
  split
  · exact h
  · rw [Pool.hash_purgeNode, h]
    rfl

theorem Tame.purge (hret : r.1 ≠ .pending)
    (hpool : r.2.pool.hash = s'.purgeNodeEverything.pool.hash)
    (hs : P → s'.pool.hash k = s.pool.hash k) : Tame P k s r :=
  ⟨hret, fun hP h => by rw [hpool]; exact absent_purgeNodeEverything ((hs hP).trans h)⟩

theorem absent_cachePurge (h : s.pool.hash k = []) : (s.cachePurge t).pool.hash k = [] := by
  rw [cachePurge]
  split
  · exact h
  · dsimp only
    split <;> rw [Pool.hash_purgeNode, h] <;> rfl

theorem tame_putDefaultRow : Tame P k s (s.putDefaultRow t) := by
  rw [putDefaultRow]
  split
  · exact .purge (by simp) rfl fun _ => rfl
  · exact .of_eq (by simp) (by simp)

theorem tame_appendRow (async emptyFlag : Bool) :
    Tame P k s (s.appendRow cfg t async emptyFlag) := by
  rw [appendRow]
  split
  · exact .of_eq (by simp) rfl
  · split
    · exact .purge (by simp) rfl fun _ => rfl
    · exact .of_eq (by simp) rfl
  · exact .of_eq (by simp) (by simp)

theorem tame_updateRows (async : Bool) : Tame P k s (s.updateRows t async) := by
  rw [updateRows]
  split
  · exact .of_eq (by simp) (by simp)
  · split
    · exact .purge (by simp) rfl (by simp)
    · exact .of_eq (by simp) (by simp)

theorem absent_storeResult (h : s.pool.hash k = []) : (s.storeResult t).pool.hash k = [] := by
  rw [storeResult]
  split
  · exact absent_purgeNodeEverything h
  · simpa using h

theorem tame_checkAndExpire : Tame P k s (s.checkAndExpire t) := by
  rw [checkAndExpire]
  split
  · exact .purge (by simp) rfl fun _ => rfl
  · exact .of_eq (by simp) rfl

variable [DecidableEq K]

@[simp] theorem hash_setFilter (b : Bool) : (s.setFilter cfg t b).pool.hash = s.pool.hash := by
  rw [setFilter]
  split <;> rfl

theorem hash_insertEmptyNode (hk : k ≠ t.key) (heq : s.insertEmptyNode t = some s') :
    s'.pool.hash k = s.pool.hash k := by
  rw [insertEmptyNode] at heq
  split at heq
  · cases heq
  next pool id hall =>
    cases heq
    exact Pool.hash_allocate hk hall

theorem tame_insertDefaultRow (hk : P → k ≠ t.key) : Tame P k s (s.insertDefaultRow cfg t) := by
  rw [insertDefaultRow]
  split
  · split
    · exact tame_putDefaultRow
    · exact .of_eq (by simp) rfl
  · split
    · exact .of_eq (by simp) rfl
    next s' heq => exact tame_putDefaultRow.congr fun hP => by rw [hash_setFilter,
      hash_insertEmptyNode (hk hP) heq]

theorem tame_bufferInsertRow (hk : P → k ≠ t.key) (async : Bool) :
    Tame P k s (s.bufferInsertRow cfg t async) := by
  rw [bufferInsertRow]
  split
  · exact tame_appendRow async false
  · split
    · exact .of_eq (by dsimp only; split <;> simp) rfl
    next s' heq =>
      have hpool (hP : P) : s'.pool.hash k = s.pool.hash k := hash_insertEmptyNode (hk hP) heq
      split
      · exact .purge (by simp) rfl hpool
      · exact (tame_appendRow async true).congr fun hP => by rw [hash_setFilter, hpool hP]

theorem tame_bufferUpdateRows (hk : P → k ≠ t.key) (async : Bool) :
    Tame P k s (s.bufferUpdateRows cfg t async) := by
  rw [bufferUpdateRows]
  split
  · have hdefault : Tame P k s (s.insertDefaultRow cfg t) := tame_insertDefaultRow hk
    split
    next s' heq =>
      rw [heq] at hdefault
      have hupdate : Tame P k s' (s'.updateRows t async) := tame_updateRows async
      exact ⟨hupdate.answers, fun hP h => hupdate.absent hP (hdefault.absent hP h)⟩
    next ret s' hret heq =>
      rw [heq] at hdefault
      exact hdefault
  · exact tame_updateRows async

omit [DecidableEq K] in
theorem tame_bufferReplaceRows (async : Bool) : Tame P k s (s.bufferReplaceRows t async) := by
  rw [bufferReplaceRows]
  split
  · exact .of_eq (by simp) (by simp)
  · refine ⟨?_, fun _ h => ?_⟩
    · dsimp only
      split <;> simp
    · dsimp only
      split
      · exact absent_purgeNodeEverything (by simpa using h)
      · simpa using h

theorem tame_bufferDeleteRows : Tame P k s (s.bufferDeleteRows cfg t) := by
  have hempty : Tame P k s (BufferResult.ok, s.purgeNodeEverything.setFilter cfg t true) :=
    .purge (by simp) (by simp) fun _ => rfl
  rw [bufferDeleteRows]
  split
  · exact hempty
  · split
    · exact hempty
    · exact .of_eq (by simp) (by simp)
    · split
      · exact .purge (by simp) rfl (by simp)
      · exact .of_eq (by simp) (by simp)

theorem absent_bufferReplaceResult (hk : k ≠ t.key) (h : s.pool.hash k = []) :
    (s.bufferReplaceResult cfg t).pool.hash k = [] := by
  rw [bufferReplaceResult]
  dsimp only
  split
  · apply absent_cachePurge
    simpa using h
  · split
    · apply absent_storeResult
      simpa using h
    · split
      · simpa using h
      next s' heq =>
        apply absent_storeResult
        rw [hash_insertEmptyNode hk heq]
        simpa using h

/-! ## Requests and replies -/

omit [DecidableEq K] in
@[simp] theorem hash_transationFindNode : (s.transationFindNode cfg t).pool.hash = s.pool.hash := by
  rw [pool_transationFindNode]

omit [DecidableEq K] in
theorem Tame.found (h : Tame P k (s.transationFindNode cfg t) r) : Tame P k s r := h.congr (by simp)

omit [DecidableEq K] in
theorem tame_bufferGetData : Tame P k s (s.bufferGetData cfg t) := by
  have hexpire : Tame P k s (if cfg.nodbMode then (s.transationFindNode cfg t).checkAndExpire t
      else (.next, s.transationFindNode cfg t)) := by
    split
    · exact tame_checkAndExpire.found
    · exact .of_eq (by simp) (by simp)
  rw [bufferGetData]
  split
  · exact .of_eq (by dsimp only; split <;> simp) (by simp)
  · exact .of_eq (by simp) (by simp)
  · split
    next s' heq =>
      rw [heq] at hexpire
      exact ⟨by simp, fun h => by simpa using hexpire.absent h⟩
    next ret s' hret heq =>
      rw [heq] at hexpire
      exact hexpire

omit [DecidableEq K] in
theorem tame_bufferBatchGetData : Tame P k s (s.bufferBatchGetData cfg t) := by
  rw [bufferBatchGetData]
  split <;> exact .of_eq (by simp) (by simp)

theorem tame_bufferSyncInsert (hk : P → k ≠ t.key) : Tame P k s (s.bufferSyncInsert cfg t) := by
  rw [bufferSyncInsert]
  dsimp only
  split_ifs
  · exact .of_eq (by simp) rfl
  · exact .of_eq (by simp) (by simp)
  · exact (tame_bufferInsertRow hk false).found

theorem tame_bufferSyncUpdate (hk : P → k ≠ t.key) : Tame P k s (s.bufferSyncUpdate cfg t) := by
  have hupdate : Tame P k s ((s.transationFindNode cfg t).bufferUpdateRows cfg t false) :=
    (tame_bufferUpdateRows hk false).found
  rw [bufferSyncUpdate]
  split
  · exact .of_eq (by simp) rfl
  split
  · exact .of_eq (by simp) rfl
  dsimp only
  split
  · exact .of_eq (by simp) (by simp)
  · split
    · exact hupdate
    · exact .of_eq (by simp) (by simp)
  · exact hupdate

theorem tame_bufferSyncReplace (hk : P → k ≠ t.key) : Tame P k s (s.bufferSyncReplace cfg t) := by
  rw [bufferSyncReplace]
  dsimp only
  split
  · exact .of_eq (by simp) rfl
  split
  · exact .of_eq (by simp) (by simp)
  · exact (tame_bufferInsertRow hk false).found
  · exact (tame_bufferReplaceRows false).found

theorem tame_bufferSyncDelete : Tame P k s (s.bufferSyncDelete cfg t) := by
  rw [bufferSyncDelete]
  split
  · exact tame_bufferDeleteRows.found
  · exact .of_eq (by simp) (by simp)

theorem tame_bufferNodbInsert (hk : P → k ≠ t.key) : Tame P k s (s.bufferNodbInsert cfg t) := by
  unfold bufferNodbInsert
  by_cases hreplace : cfg.replaceEmpty = true
  · rw [if_pos hreplace]
    exact .of_eq (by simp) rfl
  rw [if_neg hreplace]
  obtain ⟨s', hs', habsent⟩ : ∃ s', s' = (if (s.transationFindNode cfg t).tx.nodeStat = .present &&
      t.expired then (s.transationFindNode cfg t).purgeNodeEverything
      else s.transationFindNode cfg t) ∧ (s.pool.hash k = [] → s'.pool.hash k = []) := by
    refine ⟨_, rfl, fun h => ?_⟩
    split
    · exact absent_purgeNodeEverything (by simpa using h)
    · simpa using h
  dsimp only
  rw [← hs']
  split
  · exact ⟨by simp, fun _ => habsent⟩
  split
  · exact ⟨by simp, fun _ => habsent⟩
  · have hinsert : Tame P k s' (s'.bufferInsertRow cfg t false) := tame_bufferInsertRow hk false
    exact ⟨hinsert.answers, fun hP h => hinsert.absent hP (habsent h)⟩

omit [DecidableEq K] in
/-- What follows a check for an expired node. -/
theorem tame_expired {r' : St K R → BufferResult × St K R}
    (hr' : ∀ s', Tame P k s' (r' s')) : Tame P k s (match s.checkAndExpire t with
      | (.next, s) => r' s
      | (ret, s) => (ret, s)) := by
  have hexpire : Tame P k s (s.checkAndExpire t) := tame_checkAndExpire
  split
  next s' heq =>
    rw [heq] at hexpire
    exact ⟨(hr' s').answers, fun hP h => (hr' s').absent hP (hexpire.absent hP h)⟩
  next ret s' hret heq =>
    rw [heq] at hexpire
    exact hexpire

theorem tame_bufferNodbUpdate (hk : P → k ≠ t.key) : Tame P k s (s.bufferNodbUpdate cfg t) := by
  rw [bufferNodbUpdate]
  split
  · exact .of_eq (by simp) (by simp)
  · refine (tame_expired fun s' => ?_).found
    split
    · exact .of_eq (by simp) rfl
    · exact tame_bufferUpdateRows hk false

theorem tame_bufferNodbReplace (hk : P → k ≠ t.key) : Tame P k s (s.bufferNodbReplace cfg t) := by
  rw [bufferNodbReplace]
  split
  · exact .of_eq (by simp) (by simp)
  split
  · exact (tame_bufferInsertRow hk false).found
  · have hexpire : Tame P k s ((s.transationFindNode cfg t).checkAndExpire t) :=
      tame_checkAndExpire.found
    split
    next s' heq =>
      rw [heq] at hexpire
      have hreplace : Tame P k s' (s'.bufferReplaceRows t false) := tame_bufferReplaceRows false
      exact ⟨hreplace.answers, fun hP h => hreplace.absent hP (hexpire.absent hP h)⟩
    next ret s' hret heq =>
      rw [heq] at hexpire
      have hinsert : Tame P k s' (s'.bufferInsertRow cfg t false) := tame_bufferInsertRow hk false
      exact ⟨hinsert.answers, fun hP h => hinsert.absent hP (hexpire.absent hP h)⟩

theorem tame_bufferAsyncInsert (hk : P → k ≠ t.key) : Tame P k s (s.bufferAsyncInsert cfg t) := by
  have hinsert : Tame P k s ((s.transationFindNode cfg t).bufferInsertRow cfg t true) :=
    (tame_bufferInsertRow hk true).found
  rw [bufferAsyncInsert]
  dsimp only
  split
  · exact .of_eq (by simp) rfl
  split
  case h_1 | h_2 =>
    split
    · exact .of_eq (by simp) (by simp)
    · exact hinsert
  case h_3 =>
    split
    · exact .of_eq (by simp) (by simp)
    · split
      · exact .of_eq (by simp) (by simp)
      · exact hinsert

theorem tame_bufferAsyncUpdate (hk : P → k ≠ t.key) : Tame P k s (s.bufferAsyncUpdate cfg t) := by
  have hupdate : Tame P k s ((s.transationFindNode cfg t).bufferUpdateRows cfg t true) :=
    (tame_bufferUpdateRows hk true).found
  rw [bufferAsyncUpdate]
  split
  · split
    · exact .of_eq (by simp) (by simp)
    · exact hupdate
  · split
    · exact .of_eq (by simp) (by simp)
    split
    · exact .of_eq (by simp) (by simp)
    split
    · exact .of_eq (by simp) (by simp)
    · exact hupdate

theorem tame_bufferAsyncReplace (hk : P → k ≠ t.key) : Tame P k s (s.bufferAsyncReplace cfg t) := by
  have hinsert : Tame P k s ((s.transationFindNode cfg t).bufferInsertRow cfg t true) :=
    (tame_bufferInsertRow hk true).found
  rw [bufferAsyncReplace]
  split <;> split
  · exact .of_eq (by simp) (by simp)
  · exact hinsert
  · exact .of_eq (by simp) (by simp)
  · exact hinsert
  · exact .of_eq (by simp) (by simp)
  · exact (tame_bufferReplaceRows true).found

omit [DecidableEq K] in
theorem tame_bufferSyncInsertPrecheck : Tame P k s (s.bufferSyncInsertPrecheck cfg t) := by
  rw [bufferSyncInsertPrecheck]
  split
  · exact .of_eq (by simp) rfl
  split
  · exact .of_eq (by dsimp only; split <;> simp) (by simp)
  · exact .of_eq (by simp) rfl

omit [DecidableEq K] in
theorem tame_bufferFlushDataBeforeDelete : Tame P k s (s.bufferFlushDataBeforeDelete cfg t) := by
  rw [bufferFlushDataBeforeDelete]
  split
  · split
    · refine .of_eq (by simp) ?_
      dsimp only
      rw [hash_onNode, hash_transationFindNode]
      intro p id
      rfl
    · exact .of_eq (by simp) (by simp)
  · exact .of_eq (by simp) (by simp)

/-! ## Flushes and purges -/

omit [DecidableEq K] in
theorem hash_bufferFlushNode : (s.bufferFlushNode cfg t).2.pool.hash = s.pool.hash := by
  rw [bufferFlushNode]
  dsimp only
  split
  · rw [hash_transationUpdateLru]
    exact hash_onNode fun _ _ => rfl
  · exact hash_writeRows _

omit [DecidableEq K] in
theorem hash_bufferFlushData : (s.bufferFlushData cfg t).2.pool.hash = s.pool.hash := by
  rw [bufferFlushData]
  split
  · rw [hash_bufferFlushNode, hash_transationFindNode]
  · exact hash_transationFindNode

theorem absent_bufferPurgeData (h : s.pool.hash k = []) :
    (s.bufferPurgeData cfg t).2.pool.hash k = [] := by
  have hfound : (s.transationFindNode cfg t).pool.hash k = [] := by rwa [hash_transationFindNode]
  have hflush : ((s.transationFindNode cfg t).bufferFlushNode cfg t).2.pool.hash k = [] := by
    rwa [hash_bufferFlushNode]
  rw [bufferPurgeData]
  split
  · rwa [hash_setFilter]
  · exact hfound
  · split
    · split
      next s' heq =>
        rw [heq] at hflush
        exact absent_cachePurge hflush
      next ret s' hret heq =>
        rw [heq] at hflush
        exact hflush
    · exact absent_cachePurge hfound

theorem absent_bufferProcessReply (hk : k ≠ t.key) (h : s.pool.hash k = []) (cmd : Cmd) :
    (s.bufferProcessReply cfg t cmd).2.pool.hash k = [] := by
  cases cmd with
  | get =>
    rw [bufferProcessReply]
    split
    · exact h
    · exact absent_bufferReplaceResult hk h
  | insert =>
    rw [bufferProcessReply]
    split
    · exact (tame_bufferNodbInsert fun _ => hk).gone h
    split
    · exact absent_bufferPurgeData h
    · exact (tame_bufferSyncInsert fun _ => hk).gone h
  | update =>
    rw [bufferProcessReply]
    split
    · exact (tame_bufferNodbUpdate fun _ => hk).gone h
    split
    · exact absent_bufferPurgeData h
    · exact (tame_bufferSyncUpdate fun _ => hk).gone h
  | delete => exact tame_bufferSyncDelete.gone h
  | replace =>
    rw [bufferProcessReply]
    split
    · exact (tame_bufferNodbReplace fun _ => hk).gone h
    · exact (tame_bufferSyncReplace fun _ => hk).gone h
  | batchGet | purge | flush => exact h

theorem absent_bufferProcessError (hk : k ≠ t.key) (h : s.pool.hash k = [])
    (duplicateEntry unknown : Bool) (cmd : Cmd) :
    (s.bufferProcessError cfg t duplicateEntry unknown cmd).2.pool.hash k = [] := by
  cases cmd with
  | insert =>
    rw [bufferProcessError]
    split
    · exact (tame_bufferSyncInsert fun _ => hk).gone h
    split
    · exact absent_bufferPurgeData h
    · exact h
  | delete =>
    rw [bufferProcessError]
    split
    · exact absent_bufferPurgeData h
    · exact h
  | update =>
    rw [bufferProcessError]
    split
    · exact (tame_bufferSyncUpdate fun _ => hk).gone h
    split
    · exact absent_bufferPurgeData h
    · exact h
  | get | batchGet | purge | flush | replace => exact h

theorem absent_bufferProcessRequest (hk : k ≠ t.key) (h : s.pool.hash k = []) (cmd : Cmd) :
    (s.bufferProcessRequest cfg t cmd).2.pool.hash k = [] := by
  cases cmd with
  | get =>
    rw [bufferProcessRequest]
    split
    · exact h
    split
    · exact absent_bufferPurgeData h
    · exact tame_bufferGetData.gone h
  | batchGet => exact tame_bufferBatchGetData.gone h
  | insert =>
    rw [bufferProcessRequest]
    split
    · exact (tame_bufferAsyncInsert fun _ => hk).gone h
    · exact tame_bufferSyncInsertPrecheck.gone h
  | update =>
    rw [bufferProcessRequest]
    split
    · exact (tame_bufferAsyncUpdate fun _ => hk).gone h
    · exact h
  | delete =>
    have hflush : (s.bufferFlushDataBeforeDelete cfg t).2.pool.hash k = [] :=
      tame_bufferFlushDataBeforeDelete.gone h
    rw [bufferProcessRequest]
    split
    · split
      · exact h
      · split
        next heq => rwa [heq] at hflush
        next heq => rwa [heq] at hflush
    · exact h
  | purge => exact absent_bufferPurgeData h
  | flush =>
    rw [bufferProcessRequest]
    split
    · rwa [hash_bufferFlushData]
    · exact h
  | replace =>
    rw [bufferProcessRequest]
    split
    · exact h
    split
    · exact (tame_bufferAsyncReplace fun _ => hk).gone h
    · exact h

theorem absent_bufferProcessNodb (hk : k ≠ t.key) (h : s.pool.hash k = []) (cmd : Cmd) :
    (s.bufferProcessNodb cfg t cmd).2.pool.hash k = [] := by
  cases cmd with
  | get =>
    rw [bufferProcessNodb]
    split
    · exact h
    · exact tame_bufferGetData.gone h
  | batchGet => exact tame_bufferBatchGetData.gone h
  | insert => exact (tame_bufferNodbInsert fun _ => hk).gone h
  | update => exact (tame_bufferNodbUpdate fun _ => hk).gone h
  | delete => exact tame_bufferSyncDelete.gone h
  | purge => exact absent_bufferPurgeData h
  | flush => exact h
  | replace =>
    rw [bufferProcessNodb]
    split
    · exact h
    · exact (tame_bufferNodbReplace fun _ => hk).gone h

end St

end ISearch.BufferProcess
