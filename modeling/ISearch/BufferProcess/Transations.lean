import ISearch.BufferProcess.Invariant

/-!
# Transactions keep the invariant

Each function of `BufferProcess` leaves the pool with dirty rows only in marked nodes on the dirty
list. What is needed of the transaction is that `keyDirty` tells the truth; functions that write
synchronously do not even need that.
-/

namespace ISearch.BufferProcess.St

variable {K R : Type} {cfg : Config} {t : Task K R} {s : St K R}

/-- `keyDirty` is set only while `m_stNode` is marked dirty. -/
def KeyDirtyOk (s : St K R) : Prop := s.tx.keyDirty = true → s.isDirty = true

theorem isDirty_of_node {id : Nat} (hn : s.tx.node = some id) : s.isDirty = s.pool.isDirty id := by
  rw [isDirty, hn, Option.map_some, Option.getD_some]

theorem isSome_of_isDirty (hd : s.isDirty = true) : s.tx.node.isSome = true := by
  cases hn : s.tx.node with
  | none => simp [isDirty, hn] at hd
  | some id => rfl

theorem isDirty_of_hasDirty (h : s.pool.Inv) (hr : hasDirty s.rows = true) : s.isDirty = true := by
  cases hn : s.tx.node with
  | none => simp [rows, hn] at hr
  | some id =>
    rw [isDirty_of_node hn]
    exact h.rows (by simpa [rows, hn] using hr)

@[simp] theorem tx_onNode (f : Pool K R → Nat → Pool K R) : (s.onNode f).tx = s.tx := by
  unfold onNode
  split <;> rfl

theorem pool_onNode_of_none (hn : s.tx.node = none) (f : Pool K R → Nat → Pool K R) :
    (s.onNode f).pool = s.pool := by
  rw [onNode, hn]

theorem pool_onNode_of_some {id : Nat} (hn : s.tx.node = some id)
    (f : Pool K R → Nat → Pool K R) : (s.onNode f).pool = f s.pool id := by
  rw [onNode, hn]

theorem inv_onNode {f : Pool K R → Nat → Pool K R} (h : s.pool.Inv)
    (hf : ∀ id, s.tx.node = some id → (f s.pool id).Inv) : (s.onNode f).pool.Inv := by
  cases hn : s.tx.node with
  | none => rwa [pool_onNode_of_none hn]
  | some id =>
    rw [pool_onNode_of_some hn]
    exact hf id hn

@[simp] theorem tx_writeRows (rows : List (Row R)) : (s.writeRows rows).tx = s.tx := tx_onNode _

@[simp] theorem isDirty_writeRows (rows : List (Row R)) :
    (s.writeRows rows).isDirty = s.isDirty := by
  cases hn : s.tx.node with
  | none => simp [isDirty, hn]
  | some id =>
    rw [isDirty_of_node hn, isDirty_of_node (by rw [tx_writeRows, hn]), writeRows,
      pool_onNode_of_some hn, Pool.isDirty_setRows]

theorem inv_transationEnd (h : s.pool.Inv) : (s.transationEnd cfg).Inv := by
  unfold transationEnd
  split_ifs with hclean
  · dsimp only
    split_ifs
    all_goals first | exact h | skip
    all_goals
      apply inv_onNode h
      intro id hn
      apply h.moveLru
      intro hd
      rw [← isDirty_of_node hn] at hd
      simp [hd] at hclean
  · exact h

theorem inv_purgeNodeEverything (h : s.pool.Inv) : s.purgeNodeEverything.pool.Inv :=
  inv_onNode h fun id _ => h.purgeNode id

/-- A node is purged after rows of any kind were written to it. -/
theorem inv_purge_writeRows (h : s.pool.Inv) (rows : List (Row R)) :
    (s.writeRows rows).purgeNodeEverything.pool.Inv := by
  unfold purgeNodeEverything
  cases hn : s.tx.node with
  | none => rwa [pool_onNode_of_none (by rw [tx_writeRows, hn]), writeRows, pool_onNode_of_none hn]
  | some id =>
    rw [pool_onNode_of_some (by rw [tx_writeRows, hn]), writeRows, pool_onNode_of_some hn]
    exact ((h.except id).setRows rows).purgeNode

theorem inv_writeRows (h : s.pool.Inv) {rows : List (Row R)}
    (hrows : hasDirty rows = true → s.isDirty = true) : (s.writeRows rows).pool.Inv :=
  inv_onNode h fun _ hn => h.setRows fun hr => (isDirty_of_node hn).symm.trans (hrows hr)

/-- A synchronous update of the LRU only takes a note. -/
@[simp] theorem pool_transationUpdateLru_false (level : Nat) :
    (s.transationUpdateLru false level).pool = s.pool := by
  unfold transationUpdateLru
  split <;> rfl

/-- Rows written by a transaction, and the update of the LRU that follows. -/
theorem inv_write (h : s.pool.Inv) {async : Bool} (hkey : async = true → s.KeyDirtyOk)
    {rows : List (Row R)} (hrows : hasDirty rows = true → async = true ∨ s.isDirty = true)
    (level : Nat) : ((s.writeRows rows).transationUpdateLru async level).pool.Inv := by
  cases async with
  | false =>
    rw [pool_transationUpdateLru_false]
    exact inv_writeRows h fun hr => (hrows hr).resolve_left Bool.false_ne_true
  | true =>
    unfold transationUpdateLru
    by_cases hd : (s.writeRows rows).tx.keyDirty = true
    · rw [if_pos hd]
      rw [tx_writeRows] at hd
      exact inv_writeRows h fun _ => hkey rfl hd
    · rw [if_neg hd, if_pos rfl]
      dsimp only
      cases hn : s.tx.node with
      | none =>
        rwa [pool_onNode_of_none (by rw [tx_writeRows, hn]), writeRows, pool_onNode_of_none hn]
      | some id =>
        rw [pool_onNode_of_some (by rw [tx_writeRows, hn]), writeRows, pool_onNode_of_some hn]
        exact h.markDirty rows

@[simp] theorem pool_transationFindNode : (s.transationFindNode cfg t).pool = s.pool := by
  unfold transationFindNode
  split_ifs
  · rfl
  · split <;> rfl

theorem inv_transationFindNode (cfg : Config) (t : Task K R) (h : s.pool.Inv) :
    (s.transationFindNode cfg t).pool.Inv := by rwa [pool_transationFindNode]

theorem keyDirtyOk_transationFindNode (h : s.tx.keyDirty = false) :
    (s.transationFindNode cfg t).KeyDirtyOk := by
  intro hd
  unfold transationFindNode at hd ⊢
  split_ifs at hd ⊢
  · simp [h] at hd
  · cases hn : s.pool.find t.key with
    | none => simp [hn, h] at hd
    | some id => simpa [hn, isDirty] using hd

theorem inv_cachePurge (h : s.pool.Inv) : (s.cachePurge t).pool.Inv := by
  unfold cachePurge
  split
  · exact h
  · dsimp only
    split_ifs <;> exact h.purgeNode _

/-! ## Writes to the node -/

theorem inv_appendRow (h : s.pool.Inv) {async : Bool} (hkey : async = true → s.KeyDirtyOk)
    (emptyFlag : Bool) : (s.appendRow cfg t async emptyFlag).2.pool.Inv := by
  unfold appendRow
  split
  · exact h
  · split_ifs
    · exact inv_purgeNodeEverything h
    · exact h
  next rows heq =>
    apply inv_write h hkey
    intro hr
    have hdirty := hasDirty_appendData (by rw [heq]; exact hr)
    exact hdirty.imp_right (isDirty_of_hasDirty h)

/-- An update of only volatile fields, of rows in a node that is not dirty. -/
def VolatileUpdate (t : Task K R) (s : St K R) : Prop :=
  t.hasTypeCommit = false ∧ s.isDirty = false ∧ (∃ r ∈ s.rows, t.compareRow r.value = true) ∧
    (updateData t.compareRow t.updateRow true t.failAt s.rows).1 = .ok

/-- An update that does not make its node dirty meets a dirty node or changes no row. -/
theorem isDirty_of_not_volatileUpdate (h : s.pool.Inv) (hvol : ¬ s.VolatileUpdate t)
    {rows : List (Row R)} {affectedRows : Nat}
    (heq : updateData t.compareRow t.updateRow true t.failAt s.rows = (.ok, rows, affectedRows))
    (hcommit : ¬ (affectedRows > 0 && t.hasTypeCommit) = true) (hr : hasDirty rows = true) :
    s.isDirty = true := by
  by_cases hzero : affectedRows = 0
  · have hsame := updateData_of_affected_eq_zero (congrArg (·.2.2) heq |>.trans hzero)
    rw [heq] at hsame
    exact isDirty_of_hasDirty h (hsame ▸ hr)
  · have hex := exists_compareRow_of_affected (congrArg (·.2.2) heq |>.trans_ne hzero)
    have htype : t.hasTypeCommit = false := by
      simpa [Nat.pos_of_ne_zero hzero] using hcommit
    by_contra hd
    exact hvol ⟨htype, Bool.eq_false_iff.mpr hd, hex, by rw [heq]⟩

theorem inv_updateRows (h : s.pool.Inv) (hkey : s.KeyDirtyOk) {async : Bool}
    (hvol : async = true → ¬ s.VolatileUpdate t) : (s.updateRows t async).2.pool.Inv := by
  have hrows : hasDirty (updateData t.compareRow t.updateRow async t.failAt s.rows).2.1 = true →
      async = true ∨ s.isDirty = true :=
    fun hr => (hasDirty_updateData hr).imp_right (isDirty_of_hasDirty h)
  unfold updateRows
  split
  next rows affectedRows heq =>
    rw [heq] at hrows
    dsimp only at hrows ⊢
    apply inv_write h (fun _ => hkey)
    intro hr
    cases async with
    | false => exact .inr ((hrows hr).resolve_left Bool.false_ne_true)
    | true =>
      rw [if_pos rfl]
      by_cases hcommit : (affectedRows > 0 && t.hasTypeCommit) = true
      · exact .inl (if_pos hcommit)
      · exact .inr (isDirty_of_not_volatileUpdate h (hvol rfl) heq hcommit hr)
  next ret rows n hret heq =>
    split_ifs
    · exact inv_purge_writeRows h rows
    · rw [heq] at hrows
      exact inv_write h (fun _ => hkey) hrows lruAlways

theorem putDefaultRow_spec (h : s.pool.Inv) (hkey : s.KeyDirtyOk) :
    (s.putDefaultRow t).2.pool.Inv ∧
      ((s.putDefaultRow t).1 = .ok → (s.putDefaultRow t).2.KeyDirtyOk) := by
  unfold putDefaultRow
  split_ifs
  · exact ⟨inv_purgeNodeEverything h, fun hr => nomatch hr⟩
  · refine ⟨inv_writeRows h (by simp), fun _ hd => ?_⟩
    rw [isDirty_writeRows]
    exact hkey (by rwa [tx_writeRows] at hd)

theorem inv_bufferReplaceRows (h : s.pool.Inv) (hkey : s.KeyDirtyOk) {async : Bool}
    (hblack : async = true → t.blackHole = false) : (s.bufferReplaceRows t async).2.pool.Inv := by
  have hrows : hasDirty (replaceRows t.conflicts t.newRow async t.failAt s.rows).2 = true →
      async = true ∨ s.isDirty = true :=
    fun hr => (hasDirty_replaceRows hr).imp_right (isDirty_of_hasDirty h)
  unfold bufferReplaceRows
  split
  next rows heq =>
    rw [heq] at hrows
    exact inv_write h (fun _ => hkey) hrows lruWrite
  next ret rows hret heq =>
    rw [heq] at hrows
    dsimp only at hrows ⊢
    split_ifs with hpurge
    · exact inv_purge_writeRows h rows
    · apply inv_writeRows h
      intro hr
      rcases hrows hr with ha | hd
      · exact hkey (by simpa [hblack ha] using hpurge)
      · exact hd

theorem inv_storeResult (h : s.pool.Inv) : (s.storeResult t).pool.Inv := by
  unfold storeResult
  split_ifs
  · exact inv_purgeNodeEverything h
  · apply inv_write h (fun ha => absurd ha Bool.false_ne_true)
    intro hr
    simp [hasDirty] at hr

theorem inv_checkAndExpire (h : s.pool.Inv) : (s.checkAndExpire t).2.pool.Inv := by
  unfold checkAndExpire
  split_ifs
  · exact inv_purgeNodeEverything h
  · exact h

theorem checkAndExpire_eq_next {s' : St K R} (hs : s.checkAndExpire t = (.next, s')) : s' = s := by
  unfold checkAndExpire at hs
  split_ifs at hs
  · cases hs
  · exact (congrArg Prod.snd hs).symm

theorem inv_bufferGetData (h : s.pool.Inv) : (s.bufferGetData cfg t).2.pool.Inv := by
  have hfind := inv_transationFindNode cfg t h
  have hexpire : (if cfg.nodbMode then (s.transationFindNode cfg t).checkAndExpire t
      else (.next, s.transationFindNode cfg t)).2.pool.Inv := by
    split_ifs
    · exact inv_checkAndExpire hfind
    · exact hfind
  unfold bufferGetData
  dsimp only
  split
  · exact hfind
  · exact hfind
  · split
    next s' heq =>
      rw [heq] at hexpire
      rwa [pool_transationUpdateLru_false]
    next ret s' hret heq =>
      rw [heq] at hexpire
      exact hexpire

theorem inv_bufferBatchGetData (h : s.pool.Inv) : (s.bufferBatchGetData cfg t).2.pool.Inv := by
  unfold bufferBatchGetData
  dsimp only
  split_ifs
  · rwa [pool_transationUpdateLru_false, pool_transationFindNode]
  · rwa [pool_transationFindNode]

theorem inv_bufferFlushNode (cfg : Config) (t : Task K R) (h : s.pool.Inv) :
    (s.bufferFlushNode cfg t).2.pool.Inv := by
  unfold bufferFlushNode
  dsimp only
  split
  next rows n heq =>
    rw [pool_transationUpdateLru_false]
    exact inv_onNode h fun id _ => h.markClean (hasDirty_flushData (isDirty_of_hasDirty h) heq)
  next ret rows n hret heq =>
    exact inv_writeRows h fun _ => isDirty_of_flushData heq fun hr => hret (hr ▸ rfl)

theorem inv_bufferFlushData (h : s.pool.Inv) : (s.bufferFlushData cfg t).2.pool.Inv := by
  have hfind := inv_transationFindNode cfg t h
  unfold bufferFlushData
  dsimp only
  split_ifs
  · exact inv_bufferFlushNode cfg t hfind
  · exact hfind

theorem inv_bufferFlushDataBeforeDelete (h : s.pool.Inv) :
    (s.bufferFlushDataBeforeDelete cfg t).2.pool.Inv := by
  have hfind := inv_transationFindNode cfg t h
  unfold bufferFlushDataBeforeDelete
  dsimp only
  split_ifs with hd
  · split
    next rows n heq =>
      apply inv_onNode hfind
      intro id hn
      rw [← hd] at heq
      apply (hfind.markClean (hasDirty_flushData (isDirty_of_hasDirty hfind) heq)).moveLru
      intro hdirty
      rw [Pool.isDirty_mark_false] at hdirty
      cases hdirty
    next ret rows n hret heq => exact inv_writeRows hfind fun _ => hd
  · exact hfind

/-! ## Writes that may set the empty node filter -/

variable [DecidableEq K]

theorem inv_setFilter (h : s.pool.Inv) (b : Bool) : (s.setFilter cfg t b).pool.Inv := by
  unfold setFilter
  split_ifs
  · exact h.setFilter t.key b
  · exact h

@[simp] theorem tx_setFilter (b : Bool) : (s.setFilter cfg t b).tx = s.tx := by
  unfold setFilter
  split_ifs <;> rfl

theorem inv_bufferDeleteRows (h : s.pool.Inv) : (s.bufferDeleteRows cfg t).2.pool.Inv := by
  have hempty : (s.purgeNodeEverything.setFilter cfg t true).pool.Inv :=
    inv_setFilter (inv_purgeNodeEverything h) true
  have hrows : hasDirty (deleteData t.compareRow t.failAt s.rows).2 = true → s.isDirty = true :=
    fun hr => isDirty_of_hasDirty h (hasDirty_deleteData hr)
  unfold bufferDeleteRows
  by_cases hall : t.allRows = true
  · rw [if_pos hall]
    exact hempty
  rw [if_neg hall]
  obtain ⟨ret, rows, heq⟩ : ∃ ret rows,
    deleteData t.compareRow t.failAt s.rows = (ret, rows) := ⟨_, _, rfl⟩
  rw [heq] at hrows ⊢
  have hfailed : (if !s.tx.keyDirty then (s.writeRows rows).purgeNodeEverything
      else s.writeRows rows).pool.Inv := by
    split_ifs
    · exact inv_purge_writeRows h rows
    · exact inv_writeRows h hrows
  cases ret with
  | ok =>
    cases rows with
    | nil => exact hempty
    | cons r rows =>
      exact inv_write h (fun ha => absurd ha Bool.false_ne_true) (fun hr => .inr (hrows hr))
        lruWrite
  | duplicate => exact hfailed
  | failed => exact hfailed

theorem inv_insertEmptyNode {s' : St K R} (hs : s.insertEmptyNode t = some s') (h : s.pool.Inv) :
    s'.pool.Inv := by
  unfold insertEmptyNode at hs
  split at hs
  · cases hs
  next pool id hp =>
    cases hs
    exact h.allocate hp

/-- A new node is not taken for a dirty one. -/
theorem keyDirtyOk_insertEmptyNode {s' : St K R} (hs : s.insertEmptyNode t = some s')
    (hnode : ¬ s.tx.node.isSome = true) (hkey : s.KeyDirtyOk) (b : Bool) :
    (s'.setFilter cfg t b).KeyDirtyOk := by
  intro hd
  have hkeep : s'.tx.keyDirty = s.tx.keyDirty := by
    unfold insertEmptyNode at hs
    split at hs <;> cases hs
    rfl
  rw [tx_setFilter, hkeep] at hd
  have hdirty := hkey hd
  rw [isDirty, Option.not_isSome_iff_eq_none.mp hnode] at hdirty
  cases hdirty

theorem inv_bufferInsertRow (h : s.pool.Inv) {async : Bool}
    (hkey : async = true → s.KeyDirtyOk) : (s.bufferInsertRow cfg t async).2.pool.Inv := by
  unfold bufferInsertRow
  by_cases hnode : s.tx.node.isSome = true
  · rw [if_pos hnode]
    exact inv_appendRow h hkey false
  rw [if_neg hnode]
  cases hs : s.insertEmptyNode t with
  | none => exact h
  | some s' =>
    have h' := inv_insertEmptyNode hs h
    dsimp only
    split_ifs
    · exact inv_purgeNodeEverything h'
    · apply inv_appendRow (inv_setFilter h' false)
      exact fun ha => keyDirtyOk_insertEmptyNode hs hnode (hkey ha) false

/-- What `buffer_update_rows` updates, with the default row in place if `replaceEmpty` asks for one,
is a volatile update. -/
def VolatileUpdateRows (cfg : Config) (t : Task K R) (s : St K R) : Prop :=
  if cfg.replaceEmpty then
    (s.insertDefaultRow cfg t).1 = .ok ∧ (s.insertDefaultRow cfg t).2.VolatileUpdate t
  else s.VolatileUpdate t

theorem insertDefaultRow_spec (cfg : Config) (t : Task K R) (h : s.pool.Inv) (hkey : s.KeyDirtyOk) :
    (s.insertDefaultRow cfg t).2.pool.Inv ∧
      ((s.insertDefaultRow cfg t).1 = .ok → (s.insertDefaultRow cfg t).2.KeyDirtyOk) := by
  unfold insertDefaultRow
  by_cases hnode : s.tx.node.isSome = true
  · rw [if_pos hnode]
    split_ifs
    · exact putDefaultRow_spec h hkey
    · exact ⟨h, fun _ => hkey⟩
  rw [if_neg hnode]
  cases hs : s.insertEmptyNode t with
  | none => exact ⟨h, fun hr => nomatch hr⟩
  | some s' =>
    apply putDefaultRow_spec (inv_setFilter (inv_insertEmptyNode hs h) false)
    exact keyDirtyOk_insertEmptyNode hs hnode hkey false

theorem not_volatileUpdateRows_of_isDirty (hd : s.isDirty = true) :
    ¬ s.VolatileUpdateRows cfg t := by
  unfold VolatileUpdateRows insertDefaultRow
  rw [if_pos (isSome_of_isDirty hd)]
  have hvol : ¬ s.VolatileUpdate t := fun hv => Bool.false_ne_true (hv.2.1.symm.trans hd)
  split
  · split
    · unfold putDefaultRow
      split
      · exact fun hv => nomatch hv.1
      · rintro ⟨-, -, hclean, -⟩
        rw [isDirty_writeRows, hd] at hclean
        cases hclean
    · exact fun hv => hvol hv.2
  · exact hvol

theorem inv_bufferUpdateRows (h : s.pool.Inv) (hkey : s.KeyDirtyOk) {async : Bool}
    (hvol : async = true → ¬ s.VolatileUpdateRows cfg t) :
    (s.bufferUpdateRows cfg t async).2.pool.Inv := by
  unfold VolatileUpdateRows at hvol
  unfold bufferUpdateRows
  by_cases hreplace : cfg.replaceEmpty = true
  · rw [if_pos hreplace] at hvol ⊢
    obtain ⟨h', hkey'⟩ := insertDefaultRow_spec cfg t h hkey
    split
    next s' heq =>
      rw [heq] at h' hkey' hvol
      exact inv_updateRows h' (hkey' rfl) fun ha hv => hvol ha ⟨rfl, hv⟩
    next ret s' hret heq =>
      rw [heq] at h'
      exact h'
  · rw [if_neg hreplace] at hvol ⊢
    exact inv_updateRows h hkey hvol

theorem inv_bufferReplaceResult (h : s.pool.Inv) : (s.bufferReplaceResult cfg t).pool.Inv := by
  have hfind := inv_transationFindNode cfg t h
  unfold bufferReplaceResult
  dsimp only
  split_ifs
  · exact inv_cachePurge (inv_setFilter hfind true)
  · exact inv_storeResult (inv_setFilter hfind false)
  · split
    · exact inv_setFilter hfind false
    next s' hs => exact inv_storeResult (inv_insertEmptyNode hs (inv_setFilter hfind false))

theorem inv_bufferPurgeData (h : s.pool.Inv) : (s.bufferPurgeData cfg t).2.pool.Inv := by
  have hfind := inv_transationFindNode cfg t h
  have hflush := inv_bufferFlushNode cfg t hfind
  unfold bufferPurgeData
  dsimp only
  split
  · exact inv_setFilter hfind false
  · exact hfind
  · split_ifs
    · split
      next s' heq =>
        rw [heq] at hflush
        exact inv_cachePurge hflush
      next ret s' hret heq =>
        rw [heq] at hflush
        exact hflush
    · exact inv_cachePurge hfind

end ISearch.BufferProcess.St
