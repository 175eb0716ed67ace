import ISearch.BufferProcess.Dispatch

/-!
# Runs of the cache

Two kinds of operation can leave a dirty row in a node that the automatic purge takes. An
asynchronous update of volatile fields sets the flag of the rows it writes but does not mark the
node. Three admin commands move the node they find to the clean list whatever its mark, and store
rows of any kind in a node that they do not mark. In a run without these (`Safe`), dirty rows are
protected from the purge.
-/

namespace ISearch.BufferProcess

variable {K R : Type}

namespace Pool

variable {p p' : Pool K R}

/-- The nodes with dirty rows stay as they are. -/
def Keeps (p p' : Pool K R) : Prop := ∀ id, hasDirty (p.rows id) = true → p'.node id = p.node id

theorem Keeps.refl (p : Pool K R) : p.Keeps p := fun _ _ => rfl

theorem Keeps.trans {p'' : Pool K R} (h : p.Keeps p') (h' : p'.Keeps p'') : p.Keeps p'' := by
  intro id hr
  have hnode := h id hr
  rw [← rows_congr hnode] at hr
  exact (h' id hr).trans hnode

theorem Inv.notMem_dirty (h : p.Inv) {id : Nat} {l : Lru} (hl : l ≠ .dirty) (hid : id ∈ p.lru l) :
    id ∉ p.lru .dirty :=
  fun hd => hl (h.linked.unique hid hd)

theorem Inv.keeps_purgeNode (h : p.Inv) {id : Nat} (hid : id ∉ p.lru .dirty) :
    p.Keeps (p.purgeNode id) := by
  intro i hr
  apply node_setNode_of_ne
  rintro rfl
  exact hid (h.dirty (h.rows hr))

/-- Nodes that are not on the dirty list are purged one after the other. -/
theorem Inv.foldl_purgeNode (h : p.Inv) {ids : List Nat} (hids : ∀ id ∈ ids, id ∉ p.lru .dirty) :
    (ids.foldl Pool.purgeNode p).Inv ∧ p.Keeps (ids.foldl Pool.purgeNode p) := by
  induction ids generalizing p with
  | nil => exact ⟨h, Keeps.refl p⟩
  | cons id ids ih =>
    have hrest : ∀ i ∈ ids, i ∉ (p.purgeNode id).lru .dirty := by
      intro i hi hmem
      exact hids i (List.mem_cons_of_mem id hi) (h.linked.mem_unlink.mp hmem).2
    obtain ⟨hinv, hkeeps⟩ := ih (h.purgeNode id) hrest
    exact ⟨hinv, (h.keeps_purgeNode (hids id List.mem_cons_self)).trans hkeeps⟩

theorem Inv.prePurgeNodes (h : p.Inv) (purgeCount : Nat) (reserve : Option Nat) :
    (p.prePurgeNodes purgeCount reserve).Inv ∧ p.Keeps (p.prePurgeNodes purgeCount reserve) := by
  apply h.foldl_purgeNode
  intro id hid
  have hclean : id ∈ p.lru .clean :=
    List.mem_reverse.mp (List.mem_of_mem_take (List.mem_of_mem_filter hid))
  exact h.notMem_dirty Lru.noConfusion hclean

theorem Inv.tryPurgeSize (h : p.Inv) (prePurge maxPurgeCount : Nat) (fits : Nat → Bool)
    (reserve : Option Nat) :
    (p.tryPurgeSize prePurge maxPurgeCount fits reserve).Inv ∧
      p.Keeps (p.tryPurgeSize prePurge maxPurgeCount fits reserve) := by
  obtain ⟨hinv, hkeeps⟩ := h.prePurgeNodes prePurge reserve
  unfold Pool.tryPurgeSize
  dsimp only
  split
  · exact ⟨hinv, hkeeps⟩
  next id heq =>
    have hclean := List.mem_reverse.mp (List.mem_of_mem_take (List.mem_of_find?_eq_some heq))
    have hdirty := hinv.notMem_dirty Lru.noConfusion hclean
    exact ⟨hinv.purgeNode id, hkeeps.trans (hinv.keeps_purgeNode hdirty)⟩

theorem Inv.shrinkEmptyNodeList (h : p.Inv) (togo : Nat) :
    (p.shrinkEmptyNodeList togo).Inv ∧ p.Keeps (p.shrinkEmptyNodeList togo) := by
  apply h.foldl_purgeNode
  intro id hid
  have hempty : id ∈ p.lru .empty := List.mem_reverse.mp (List.mem_of_mem_take hid)
  exact h.notMem_dirty Lru.noConfusion hempty

/-- No row that is not flushed can be lost to the automatic purge. -/
structure Protected (p : Pool K R) : Prop where
  marked : ∀ id, hasDirty (p.rows id) = true → p.isDirty id = true
  onDirtyList : ∀ id, hasDirty (p.rows id) = true →
    id ∈ p.lru .dirty ∧ id ∉ p.lru .clean ∧ id ∉ p.lru .empty
  prePurgeNodes : ∀ purgeCount reserve, p.Keeps (p.prePurgeNodes purgeCount reserve)
  tryPurgeSize : ∀ prePurge maxPurgeCount fits reserve,
    p.Keeps (p.tryPurgeSize prePurge maxPurgeCount fits reserve)
  shrinkEmptyNodeList : ∀ togo, p.Keeps (p.shrinkEmptyNodeList togo)

theorem Inv.protected (h : p.Inv) : p.Protected where
  marked _ hr := h.rows hr
  onDirtyList id hr := by
    have hmem := h.dirty (h.rows hr)
    exact ⟨hmem, fun hc => h.notMem_dirty Lru.noConfusion hc hmem,
      fun he => h.notMem_dirty Lru.noConfusion he hmem⟩
  prePurgeNodes n reserve := (h.prePurgeNodes n reserve).2
  tryPurgeSize n m fits reserve := (h.tryPurgeSize n m fits reserve).2
  shrinkEmptyNodeList togo := (h.shrinkEmptyNodeList togo).2

/-! ## Admin commands -/

variable {cfg : Config} {t : RawTask K R}

theorem Inv.cachePurge (h : p.Inv) (key : K) : (p.cachePurge key).Inv := by
  unfold Pool.cachePurge
  split
  · exact h
  · exact h.purgeNode _

/-- Every node that `buffer_adjust_lru` moves, up to the first key that is not in the cache, is
clean. -/
def AdjustSafe (p : Pool K R) (keys : List K) : Prop :=
  ∀ key ∈ keys.takeWhile fun key => (p.find key).isSome, ∀ id, p.find key = some id →
    p.isDirty id = false

theorem Inv.bufferAdjustLru (h : p.Inv) {keys : List K} (hsafe : p.AdjustSafe keys) :
    (p.bufferAdjustLru keys).Inv := by
  induction keys generalizing p with
  | nil => exact h
  | cons key keys ih =>
    unfold Pool.bufferAdjustLru
    cases hfind : p.find key with
    | none => exact h
    | some id =>
      unfold AdjustSafe at hsafe
      rw [List.takeWhile_cons_of_pos (by simp [hfind])] at hsafe
      apply ih
      · apply h.moveLru
        intro hd
        rw [hsafe key List.mem_cons_self id hfind] at hd
        cases hd
      · intro k hk
        exact hsafe k (List.mem_cons_of_mem key hk)

theorem Inv.bufferFlushDataTimer (h : p.Inv) (id : Nat) (failAt : Option Nat) :
    (p.bufferFlushDataTimer id failAt).Inv := by
  unfold Pool.bufferFlushDataTimer
  split
  next rows n heq =>
    apply (h.markClean (hasDirty_flushData h.rows heq)).moveLru
    intro hd
    rw [isDirty_mark_false] at hd
    cases hd
  next ret rows n hret heq =>
    exact h.setRows fun _ => isDirty_of_flushData heq fun hr => hret (hr ▸ rfl)

variable [DecidableEq K]

/-- The node found is moved to the clean list whatever its mark. -/
theorem Inv.rawNode (h : p.Inv) {id : Nat} (hraw : p.rawNode t = some (p', id)) :
    p'.InvExcept id ∧ (hasDirty (p'.rows id) = true → p'.isDirty id = true) ∧
      p'.isDirty id = p.isDirty id := by
  unfold Pool.rawNode at hraw
  split at hraw
  · have h' := h.allocate hraw
    obtain ⟨hfree, hnode, -⟩ := allocate_eq_some hraw
    refine ⟨h'.except id, h'.rows, ?_⟩
    simp [isDirty, hnode, hfree]
  · cases hraw
    exact ⟨(h.except id).moveLru .clean, h.rows, rfl⟩

/-- The raw data are stored, or at least the node stays in the cache. -/
def RawStored (cfg : Config) (t : RawTask K R) : Prop :=
  t.keyNoexist = false ∧ t.emptyNode = false ∧ t.badRawData = false ∧
    (t.dataFails = true → cfg.nodbMode = true)

/-- A replace-raw-data command stores clean rows in a node that is not dirty. -/
def ReplaceSafe (p : Pool K R) (cfg : Config) (t : RawTask K R) : Prop :=
  RawStored cfg t → ∀ p' id, p.rawNode t = some (p', id) →
    p.isDirty id = false ∧ (t.dataFails = false → hasDirty t.rows = false)

/-- A migrate command says of a dirty node that it is one, and stores dirty rows only there. -/
def MigrateSafe (p : Pool K R) (cfg : Config) (t : RawTask K R) : Prop :=
  RawStored cfg t → ∀ p' id, p.rawNode t = some (p', id) →
    (p.isDirty id = true → t.dirtyNode = true) ∧
      (t.dataFails = false → hasDirty t.rows = true → p.isDirty id = true)

omit [DecidableEq K] in
theorem InvExcept.replaceRaw {id : Nat} (h : p.InvExcept id)
    (hrows : hasDirty (p.rows id) = true → p.isDirty id = true)
    (hkeep : (t.dataFails = true → cfg.nodbMode = true) →
      (p.isDirty id = true → id ∈ p.lru .dirty) ∧
        (t.dataFails = false → hasDirty t.rows = true → p.isDirty id = true)) :
    (p.replaceRaw cfg t id).Inv := by
  unfold Pool.replaceRaw
  split
  next hfail =>
    split
    next hnodb => exact h.inv hrows (hkeep fun _ => hnodb).1
    · exact h.purgeNode
  next hok =>
    obtain ⟨hdirty, hstored⟩ := hkeep fun hf => absurd hf hok
    apply (h.setRows t.rows).inv
    · rw [isDirty_setRows]
      exact fun hd => hstored (Bool.eq_false_iff.mpr hok) (hasDirty_rows_setRows hd)
    · rwa [isDirty_setRows]

theorem Inv.bufferReplaceRawData (h : p.Inv) (hsafe : p.ReplaceSafe cfg t) :
    (p.bufferReplaceRawData cfg t).Inv := by
  unfold Pool.bufferReplaceRawData
  by_cases hempty : t.emptyNode = true
  · rw [hempty, Bool.or_true, if_pos rfl]
    apply Inv.cachePurge
    split
    · exact h.setFilter t.key true
    · exact h
  have hfilter : ¬ (t.emptyNode && cfg.hasEmptyNodeFilter) = true := by simp [hempty]
  rw [if_neg hfilter]
  split
  · exact h.cachePurge t.key
  split
  · exact h
  dsimp only
  split
  · exact h
  next hkey hbad _ p' id hraw =>
    obtain ⟨hexcept, hrows, hsame⟩ := h.rawNode hraw
    apply hexcept.replaceRaw hrows
    intro hfails
    have hclean := hsafe ⟨by simpa [hempty] using hkey, by simpa using hempty, by simpa using hbad,
      hfails⟩ p' id hraw
    rw [hsame, hclean.1]
    refine ⟨fun hd => absurd hd Bool.false_ne_true, fun hok hr => ?_⟩
    rw [hclean.2 hok] at hr
    exact hr

theorem Inv.bufferMigrate (h : p.Inv) (hsafe : p.MigrateSafe cfg t) :
    (p.bufferMigrate cfg t).Inv := by
  unfold Pool.bufferMigrate
  split
  · exact h.cachePurge t.key
  split
  · exact h
  split
  · exact h
  next hkey hbad _ p' id hraw =>
    obtain ⟨hexcept, hrows, hsame⟩ := h.rawNode hraw
    have hstored (hfails : t.dataFails = true → cfg.nodbMode = true) :=
      hsafe ⟨by simp at hkey; exact hkey.1, by simp at hkey; exact hkey.2, by simpa using hbad,
        hfails⟩ p' id hraw
    rw [← hsame] at hstored
    split
    · apply (hexcept.moveLru .dirty).replaceRaw hrows
      exact fun hfails => ⟨fun _ => mem_moveLru_self hexcept .dirty, (hstored hfails).2⟩
    next hdirtyNode =>
      apply hexcept.replaceRaw hrows
      exact fun hfails => ⟨fun hd => absurd ((hstored hfails).1 hd) hdirtyNode, (hstored hfails).2⟩

end Pool

/-! ## Runs -/

variable [DecidableEq K]

/-- The operation is not one of those that lose track of dirty rows. -/
def Safe (cfg : Config) (p : Pool K R) : Op K R → Prop
  | .request cmd t => cfg.nodbMode = false → cmd = .update →
      ¬ St.VolatileRequest cfg { t with blackHole := false } { pool := p }
  | .adjustLru keys => p.AdjustSafe keys
  | .replaceRawData t => p.ReplaceSafe cfg t
  | .migrate t => p.MigrateSafe cfg t
  | _ => True

theorem inv_step {cfg : Config} {p : Pool K R} {op : Op K R} (h : p.Inv) (hsafe : Safe cfg p op) :
    ∃ p', step cfg p op = some p' ∧ p'.Inv := by
  cases op with
  | request cmd t =>
    rw [step]
    by_cases hnodb : cfg.nodbMode = true
    · rw [if_pos hnodb]
      exact ⟨_, rfl, St.inv_transationEnd (St.inv_bufferProcessNodb h rfl cmd)⟩
    · rw [if_neg hnodb]
      refine ⟨_, rfl, St.inv_transationEnd (St.inv_bufferProcessRequest h rfl rfl ?_)⟩
      exact hsafe (Bool.eq_false_iff.mpr hnodb)
  | reply cmd t => exact ⟨_, rfl, St.inv_transationEnd (St.inv_bufferProcessReply h rfl cmd)⟩
  | replyError cmd duplicateEntry unknown t =>
    exact ⟨_, rfl, St.inv_transationEnd (St.inv_bufferProcessError h rfl duplicateEntry unknown cmd)⟩
  | flushTimer node failAt =>
    refine ⟨_, rfl, ?_⟩
    split
    · exact h.bufferFlushDataTimer node failAt
    · exact h
  | adjustLru keys => exact ⟨_, rfl, h.bufferAdjustLru hsafe⟩
  | replaceRawData t => exact ⟨_, rfl, h.bufferReplaceRawData hsafe⟩
  | migrate t => exact ⟨_, rfl, h.bufferMigrate hsafe⟩
  | migrated key => exact ⟨_, rfl, h.cachePurge key⟩
  | tryPurge prePurge fits reserve => exact ⟨_, rfl, (h.tryPurgeSize prePurge 2500 fits reserve).1⟩
  | delayPurge count => exact ⟨_, rfl, (h.prePurgeNodes count none).1⟩
  | shrinkEmpty togo => exact ⟨_, rfl, (h.shrinkEmptyNodeList togo).1⟩

/-- In a run without the operations that lose track of dirty rows, no row that is not flushed is
evicted. -/
theorem protected_run (cfg : Config) (ops : List (Op K R))
    (h : AlongRun (step cfg) (Safe cfg) Pool.init ops) :
    ∃ p, runOps (step cfg) Pool.init ops = some p ∧ p.Protected := by
  obtain ⟨p, hrun, hinv⟩ :=
    invariant_along (fun _ _ hinv hsafe => inv_step hinv hsafe) Pool.Inv.init ops h
  exact ⟨p, hrun, hinv.protected⟩

/-- An asynchronous cache that holds all keys. -/
def asyncConfig : Config where
  updateMode := .async
  insertMode := .async
  nodbMode := false
  fullMode := true
  lossyMode := false
  replaceEmpty := false
  insertOrderPurge := false
  insertFirst := false
  hasEmptyNodeFilter := false
  keyAsUniqField := true
  noLRU := 0

/-- A request for key `7` that memory is sufficient for, with node `0` on offer. -/
def plainTask : Task Nat Nat where
  key := 7
  compareRow _ := true
  updateRow := (· + 1)
  newRow := 1
  defaultRow := 0
  conflicts _ := true
  hasOperation := true
  hasTypeCommit := true
  hasTimestampCondition := false
  allRows := true
  affectedRows := 1
  passThru := false
  blackHole := false
  inBlacklist := false
  badRequest := false
  notAllowedInsert := false
  duplicate := false
  expired := false
  badExpireTime := false
  result := []
  exceedsLimit := false
  freeNode := some 0
  initFails := false
  failAt := none

theorem protected_run_insert_update :
    ∃ p, runOps (step asyncConfig)
      Pool.init [.request .insert plainTask, .request .update plainTask] = some p ∧
        p.Protected ∧ hasDirty (p.rows 0) = true := by
  have hrun := protected_run asyncConfig
    [.request .insert plainTask, .request .update plainTask] (by
      refine ⟨fun _ hcmd => Cmd.noConfusion hcmd, ?_⟩
      refine fun p _ => ⟨fun _ _ hvol => ?_, fun _ _ => trivial⟩
      have hcommit : plainTask.hasTypeCommit = false := hvol.2.2.1
      cases hcommit)
  obtain ⟨p, hp, hprotected⟩ := hrun
  refine ⟨p, hp, hprotected, ?_⟩
  cases hp
  rfl

/-- `buffer_adjust_lru` hands the row of an asynchronous insert to the automatic purge. -/
theorem adjustLru_evicts :
    ¬ ∀ (cfg : Config) (ops : List (Op Nat Nat)) (p : Pool Nat Nat),
      runOps (step cfg) Pool.init ops = some p → p.Protected := by
  intro h
  have hp := h asyncConfig [.request .insert plainTask, .adjustLru [7]] _ rfl
  have hclean := (hp.onDirtyList 0 (by decide)).2.1
  exact hclean (by decide)

end ISearch.BufferProcess
