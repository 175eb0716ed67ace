import ISearch.BufferProcess.Absent
import ISearch.BufferProcess.Counters

/-!
# Flush requests (`buffer_flush.cc`)

The flush request of a node is committed with the task that it answers, if there is one. A request
leaves its task unanswered exactly where a flush request with rows left waits for it.
-/

namespace ISearch.BufferProcess

variable {K R : Type}

/-! ## What a flush takes -/

theorem hasDirty_iff {rows : List (Row R)} : hasDirty rows = true ↔ 0 < dirtyCount rows := by
  rw [hasDirty, dirtyCount, List.countP_pos_iff, List.any_eq_true]

/-- A flush with memory for all dirty rows takes them all. -/
theorem flushLoop_spec {failAt : Option Nat} {rows : List (Row R)}
    (hmem : ∀ n, failAt = some n → dirtyCount rows ≤ n) :
    (flushLoop failAt rows).1 = .ok ∧ (flushLoop failAt rows).2.2 = dirtyCount rows := by
  induction rows generalizing failAt with
  | nil => exact ⟨rfl, rfl⟩
  | cons r rows ih =>
    rw [flushLoop]
    have hcons : dirtyCount (r :: rows) = dirtyCount rows + if r.dirty then 1 else 0 :=
      List.countP_cons ..
    by_cases hr : r.dirty = false
    · rw [if_pos hr]
      rw [hr] at hcons
      have hrest := ih fun n hn => by
        have := hmem n hn
        simp only [Bool.false_eq_true, if_false] at hcons
        omega
      exact ⟨hrest.1, hrest.2.trans hcons.symm⟩
    · have hr' : r.dirty = true := by simpa using hr
      rw [hr', if_pos rfl] at hcons
      have hfail : failAt ≠ some 0 := fun h0 => by
        have := hmem 0 h0
        omega
      rw [if_neg hr, if_neg hfail]
      have hrest := @ih (failAt.map (· - 1)) fun n hn => by
        obtain ⟨m, hm, rfl⟩ := Option.map_eq_some_iff.mp hn
        have := hmem m hm
        omega
      exact ⟨hrest.1, by dsimp only; rw [hrest.2, hcons]⟩

namespace St

variable (cfg : Config) (t : Task K R)

/-- The flush request of the node of the transaction: the rows that were taken, and whether all
were. Without a database none is made. -/
def nodeCommits (s : St K R) : Option (Nat × Bool) :=
  if cfg.nodbMode then none
  else
    let (ret, _, numReq) := flushData s.isDirty t.failAt s.rows
    some (numReq, ret = .ok)

/-- The flush request that `buffer_purge_data` commits with the task. -/
def purgeCommits (s : St K R) : Option (Nat × Bool) :=
  let s := s.transationFindNode cfg t
  if cfg.updateMode ≠ .sync ∧ s.isDirty then s.nodeCommits cfg t else none

/-- The flush request that a request commits with its task; that of a Delete has no task. -/
def requestCommits (s : St K R) : Cmd → Option (Nat × Bool)
  | .get => if t.badRequest = false ∧ t.inBlacklist then s.purgeCommits cfg t else none
  | .purge => s.purgeCommits cfg t
  | .flush =>
    let s' := s.transationFindNode cfg t
    if cfg.updateMode ≠ .sync ∧ s'.isDirty then s'.nodeCommits cfg t else none
  | _ => none

/-- The flush request that the reply to a request commits with its task. -/
def replyCommits (s : St K R) : Cmd → Option (Nat × Bool)
  | .insert => if t.blackHole = false ∧ cfg.insertOrderPurge then s.purgeCommits cfg t else none
  | .update =>
    if t.blackHole = false ∧ cfg.insertOrderPurge ∧ t.affectedRows > 0 then s.purgeCommits cfg t
    else none
  | _ => none

/-- The node of the task is marked dirty, and is flushed where it is purged. -/
def FoundDirty (s : St K R) : Prop :=
  cfg.updateMode ≠ .sync ∧ (s.transationFindNode cfg t).isDirty = true

/-- The node of the task has a dirty row, and the cache memory for all its flush tasks. -/
structure Flushable (s : St K R) : Prop where
  nodb : cfg.nodbMode = false
  rows : hasDirty (s.transationFindNode cfg t).rows = true
  memory : ∀ n, t.failAt = some n → dirtyCount (s.transationFindNode cfg t).rows ≤ n

/-- One node of the key at most, and none where the filter of empty nodes has it. -/
structure Findable (s : St K R) : Prop where
  single : (s.pool.hash t.key).length ≤ 1
  filter : cfg.hasEmptyNodeFilter = true → s.pool.emptyNodeFilter t.key = true →
    s.pool.hash t.key = []

variable {cfg t} {s s' : St K R}

theorem purgeCommits_eq_none (h : ¬ s.FoundDirty cfg t) : s.purgeCommits cfg t = none := if_neg h

/-- The flush of a node with dirty rows leaves its task waiting. -/
theorem bufferFlushNode_spec (h : s.Flushable cfg t)
    (hdirty : (s.transationFindNode cfg t).isDirty = true) :
    ((s.transationFindNode cfg t).bufferFlushNode cfg t).1 = .pending ∧
      ∃ n, (s.transationFindNode cfg t).nodeCommits cfg t = some (n + 1, true) := by
  obtain ⟨hret, hcount⟩ := flushLoop_spec h.memory
  have hpos := hasDirty_iff.mp h.rows
  have hdata : flushData (s.transationFindNode cfg t).isDirty t.failAt
      (s.transationFindNode cfg t).rows = flushLoop t.failAt (s.transationFindNode cfg t).rows := by
    rw [flushData, if_pos hdirty]
  obtain ⟨n, hn⟩ := Nat.exists_eq_add_of_lt hpos
  rw [zero_add] at hn
  refine ⟨?_, n, ?_⟩
  · rw [bufferFlushNode]
    simp only [h.nodb, Bool.false_eq_true, if_false, hdata]
    split
    next rows flushCnt heq =>
      rw [heq] at hcount
      dsimp only at hcount ⊢
      rw [if_neg (by simp; omega)]
    next ret rows cnt hne heq => exact absurd (by rw [← hret, heq]) hne
  · rw [nodeCommits]
    simp only [h.nodb, Bool.false_eq_true, if_false, hdata, hret, hcount, hn, decide_true]

theorem hash_cachePurge_self (h : (s.pool.hash t.key).length ≤ 1) :
    (s.cachePurge t).pool.hash t.key = [] := by
  rw [cachePurge]
  cases hids : s.pool.hash t.key with
  | nil =>
    rw [Pool.find, hids]
    exact hids
  | cons id ids =>
    rw [hids, List.length_cons] at h
    obtain rfl := List.eq_nil_of_length_eq_zero (show ids.length = 0 by omega)
    rw [Pool.find, hids]
    dsimp only [List.head?_cons]
    split <;> rw [Pool.hash_purgeNode, hids, List.erase_cons_head]

/-- What was seen of the key. -/
theorem found_cases (cfg : Config) (t : Task K R) (s : St K R) :
    (s.transationFindNode cfg t).tx.nodeStat = .present ∨
      (s.transationFindNode cfg t).isDirty = false ∧
        ((s.transationFindNode cfg t).tx.nodeStat = .missing ∧ s.pool.hash t.key = [] ∨
          (s.transationFindNode cfg t).tx.nodeStat = .empty ∧ cfg.hasEmptyNodeFilter = true ∧
            s.pool.emptyNodeFilter t.key = true) := by
  unfold transationFindNode
  split
  next hfilter => exact .inr ⟨rfl, .inr ⟨rfl, by simpa using hfilter⟩⟩
  · cases hfind : s.pool.find t.key with
    | none => exact .inr ⟨rfl, .inl ⟨rfl, List.head?_eq_none_iff.mp hfind⟩⟩
    | some id => exact .inl rfl

variable [DecidableEq K]

/-- A Purge is answered or waits for its flush request, and its key is gone. -/
theorem bufferPurgeData_spec (hfind : s.Findable cfg t)
    (hflush : s.FoundDirty cfg t → s.Flushable cfg t) :
    ((s.bufferPurgeData cfg t).1 = .ok ∧ s.purgeCommits cfg t = none ∨
      (s.bufferPurgeData cfg t).1 = .pending ∧ ∃ n, s.purgeCommits cfg t = some (n + 1, true)) ∧
      (s.bufferPurgeData cfg t).2.pool.hash t.key = [] := by
  have hsingle : ((s.transationFindNode cfg t).pool.hash t.key).length ≤ 1 := by
    rw [hash_transationFindNode]
    exact hfind.single
  rw [bufferPurgeData, purgeCommits]
  rcases found_cases cfg t s with hpresent | ⟨hclean, ⟨hmissing, hnone⟩ | ⟨hempty, hfilter⟩⟩
  · rw [hpresent]
    dsimp only
    by_cases hdirty : s.FoundDirty cfg t
    · obtain ⟨hpending, n, hn⟩ := bufferFlushNode_spec (hflush hdirty) hdirty.2
      have hif : cfg.updateMode ≠ .sync ∧ (s.transationFindNode cfg t).isDirty = true := hdirty
      rw [if_pos hif, if_pos hif]
      have hhash := @hash_bufferFlushNode _ _ cfg t (s.transationFindNode cfg t)
      obtain ⟨⟨ret, s'⟩, heq⟩ : ∃ r, (s.transationFindNode cfg t).bufferFlushNode cfg t = r :=
        ⟨_, rfl⟩
      rw [heq] at hpending hhash ⊢
      dsimp only at hpending hhash
      subst hpending
      exact ⟨.inr ⟨rfl, n, hn⟩, hash_cachePurge_self (by rwa [hhash])⟩
    · have hif : ¬ (cfg.updateMode ≠ .sync ∧ (s.transationFindNode cfg t).isDirty = true) := hdirty
      rw [if_neg hif, if_neg hif]
      exact ⟨.inl ⟨rfl, rfl⟩, hash_cachePurge_self hsingle⟩
  · have hdirty : ¬ s.FoundDirty cfg t := fun hd => Bool.false_ne_true (hclean.symm.trans hd.2)
    rw [hmissing]
    exact ⟨.inl ⟨rfl, if_neg hdirty⟩, by rwa [hash_transationFindNode]⟩
  · have hdirty : ¬ s.FoundDirty cfg t := fun hd => Bool.false_ne_true (hclean.symm.trans hd.2)
    rw [hempty]
    exact ⟨.inl ⟨rfl, if_neg hdirty⟩,
      by rw [hash_setFilter, hash_transationFindNode, hfind.filter hfilter.1 hfilter.2]⟩

omit [DecidableEq K] in
theorem bufferFlushData_spec (hflush : s.FoundDirty cfg t → s.Flushable cfg t)
    (hmode : cfg.updateMode ≠ .sync) :
    ((s.bufferFlushData cfg t).1 = .ok ∧ ¬ s.FoundDirty cfg t ∨
      (s.bufferFlushData cfg t).1 = .pending ∧ s.FoundDirty cfg t ∧
        ∃ n, (s.transationFindNode cfg t).nodeCommits cfg t = some (n + 1, true)) := by
  rw [bufferFlushData]
  by_cases hdirty : (s.transationFindNode cfg t).isDirty = true
  · have hspec := bufferFlushNode_spec (hflush ⟨hmode, hdirty⟩) hdirty
    rw [if_pos hdirty]
    exact .inr ⟨hspec.1, ⟨hmode, hdirty⟩, hspec.2⟩
  · rw [if_neg hdirty]
    exact .inl ⟨rfl, fun hd => hdirty hd.2⟩

/-! ## Requests that get one answer -/

/-- What a request needs: a dirty node is flushed for a Flush or a Purge only, with a row to wait
for. -/
def RequestOk (cfg : Config) (t : Task K R) (s : St K R) : Cmd → Prop
  | .get => cfg.nodbMode = false → t.badRequest = false → t.inBlacklist = true →
    ¬ s.FoundDirty cfg t
  | .purge => s.Findable cfg t ∧ (s.FoundDirty cfg t → s.Flushable cfg t)
  | .flush => cfg.nodbMode = false → s.FoundDirty cfg t → s.Flushable cfg t
  | _ => True

/-- The reply to a request purges no dirty node. -/
def ReplyOk (cfg : Config) (t : Task K R) (s : St K R) : Cmd → Prop
  | .insert => cfg.nodbMode = false → t.blackHole = false → cfg.insertOrderPurge = true →
      ¬ s.FoundDirty cfg t
  | .update => cfg.nodbMode = false → t.blackHole = false → cfg.insertOrderPurge = true →
      t.affectedRows > 0 → ¬ s.FoundDirty cfg t
  | _ => True

omit [DecidableEq K] in
theorem purgeCommits_of_nodb (hnodb : cfg.nodbMode = true) : s.purgeCommits cfg t = none := by
  rw [purgeCommits, nodeCommits, hnodb]
  split <;> rfl

omit [DecidableEq K] in
theorem replyCommits_eq_none {cmd : Cmd} (hok : s.ReplyOk cfg t cmd) :
    s.replyCommits cfg t cmd = none := by
  cases hnodb : cfg.nodbMode with
  | true =>
    cases cmd with
    | insert | update =>
      rw [replyCommits]
      split
      · exact purgeCommits_of_nodb hnodb
      · rfl
    | get | batchGet | delete | purge | flush | replace => rfl
  | false =>
    cases cmd with
    | insert =>
      rw [replyCommits]
      split
      next h => exact purgeCommits_eq_none (hok hnodb h.1 h.2)
      · rfl
    | update =>
      rw [replyCommits]
      split
      next h => exact purgeCommits_eq_none (hok hnodb h.1 h.2.1 h.2.2)
      · rfl
    | get | batchGet | delete | purge | flush | replace => rfl

theorem bufferProcessRequest_spec {cmd : Cmd} (hnodb : cfg.nodbMode = false)
    (hok : s.RequestOk cfg t cmd) :
    (s.bufferProcessRequest cfg t cmd).1 ≠ .pending ∧ s.requestCommits cfg t cmd = none ∨
      (s.bufferProcessRequest cfg t cmd).1 = .pending ∧
        ∃ n, s.requestCommits cfg t cmd = some (n + 1, true) := by
  cases cmd with
  | get =>
    refine .inl ⟨?_, ?_⟩
    · rw [bufferProcessRequest]
      split
      · simp
      split
      · simp
      · exact (tame_bufferGetData (P := False) (k := t.key)).answers
    · rw [requestCommits]
      split
      next h => exact purgeCommits_eq_none (hok hnodb h.1 h.2)
      · rfl
  | batchGet => exact .inl ⟨(tame_bufferBatchGetData (P := False) (k := t.key)).answers, rfl⟩
  | insert =>
    refine .inl ⟨?_, rfl⟩
    rw [bufferProcessRequest]
    split
    · exact (tame_bufferAsyncInsert (P := False) (k := t.key) False.elim).answers
    · exact (tame_bufferSyncInsertPrecheck (P := False) (k := t.key)).answers
  | update =>
    refine .inl ⟨?_, rfl⟩
    rw [bufferProcessRequest]
    split
    · exact (tame_bufferAsyncUpdate (P := False) (k := t.key) False.elim).answers
    · simp
  | delete =>
    refine .inl ⟨?_, rfl⟩
    rw [bufferProcessRequest]
    split
    · split
      · simp
      · split <;> simp
    · simp
  | purge =>
    rcases (bufferPurgeData_spec hok.1 hok.2).1 with ⟨hret, hnone⟩ | hpending
    · exact .inl ⟨by rw [bufferProcessRequest, hret]; simp, hnone⟩
    · exact .inr hpending
  | flush =>
    rw [bufferProcessRequest, requestCommits]
    by_cases hmode : cfg.updateMode = .sync
    · rw [if_neg (by simp [hmode]), if_neg (by simp [hmode])]
      exact .inl ⟨by simp, rfl⟩
    · rw [if_pos hmode]
      rcases bufferFlushData_spec (hok hnodb) hmode with ⟨hret, hdirty⟩ | ⟨hret, hdirty, hn⟩
      · have hif : ¬ (cfg.updateMode ≠ .sync ∧ (s.transationFindNode cfg t).isDirty = true) :=
          hdirty
        rw [if_neg hif, hret]
        exact .inl ⟨by simp, rfl⟩
      · have hif : cfg.updateMode ≠ .sync ∧ (s.transationFindNode cfg t).isDirty = true := hdirty
        rw [if_pos hif]
        exact .inr ⟨hret, hn⟩
  | replace =>
    refine .inl ⟨?_, rfl⟩
    rw [bufferProcessRequest]
    split
    · simp
    split
    · exact (tame_bufferAsyncReplace (P := False) (k := t.key) False.elim).answers
    · simp

/-- Without a database a dirty node is never purged. -/
theorem bufferProcessNodb_answers {cmd : Cmd} (hnodb : cfg.nodbMode = true)
    (hok : s.RequestOk cfg t cmd) : (s.bufferProcessNodb cfg t cmd).1 ≠ .pending := by
  cases cmd with
  | get =>
    rw [bufferProcessNodb]
    split
    · simp
    · exact (tame_bufferGetData (P := False) (k := t.key)).answers
  | batchGet => exact (tame_bufferBatchGetData (P := False) (k := t.key)).answers
  | insert => exact (tame_bufferNodbInsert (P := False) (k := t.key) False.elim).answers
  | update => exact (tame_bufferNodbUpdate (P := False) (k := t.key) False.elim).answers
  | delete => exact (tame_bufferSyncDelete (P := False) (k := t.key)).answers
  | purge =>
    rcases (bufferPurgeData_spec hok.1 hok.2).1 with ⟨hret, -⟩ | ⟨-, n, hn⟩
    · rw [bufferProcessNodb, hret]
      simp
    · rw [purgeCommits, nodeCommits, hnodb] at hn
      dsimp only at hn
      split at hn
      · rw [if_pos rfl] at hn
        cases hn
      · cases hn
  | flush => simp [bufferProcessNodb]
  | replace =>
    rw [bufferProcessNodb]
    split
    · simp
    · exact (tame_bufferNodbReplace (P := False) (k := t.key) False.elim).answers

end St

end ISearch.BufferProcess
