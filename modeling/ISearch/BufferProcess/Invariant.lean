import ISearch.BufferProcess.Requests

/-!
# Dirty rows are on the dirty list

A node with a dirty row is marked dirty, and a node that is marked dirty is on the dirty LRU list.
The operations of the pool keep this under the conditions stated here; the requests are made of
them.
-/

namespace ISearch.BufferProcess

open Function

variable {K R : Type}

namespace Pool

structure Inv (p : Pool K R) : Prop where
  linked : Lists.Linked p.lru
  rows : ∀ {id}, hasDirty (p.rows id) = true → p.isDirty id = true
  dirty : ∀ {id}, p.isDirty id = true → id ∈ p.lru .dirty

/-- The invariant of all nodes but one, which an operation is working on. -/
structure InvExcept (p : Pool K R) (x : Nat) : Prop where
  linked : Lists.Linked p.lru
  rows : ∀ {id}, id ≠ x → hasDirty (p.rows id) = true → p.isDirty id = true
  dirty : ∀ {id}, id ≠ x → p.isDirty id = true → id ∈ p.lru .dirty

section

variable (p : Pool K R) (id : Nat)

@[simp] theorem node_setNode_self (n : Option (Node K R)) : (p.setNode id n).node id = n :=
  update_self ..

theorem node_setNode_of_ne {i : Nat} (h : i ≠ id) (n : Option (Node K R)) :
    (p.setNode id n).node i = p.node i :=
  update_of_ne h _ _

@[simp] theorem lru_setNode (n : Option (Node K R)) : (p.setNode id n).lru = p.lru := rfl

@[simp] theorem lru_setRows (rows : List (Row R)) : (p.setRows id rows).lru = p.lru := rfl

@[simp] theorem lru_mark (b : Bool) : (p.mark id b).lru = p.lru := rfl

@[simp] theorem node_moveLru (l : Lru) : (p.moveLru id l).node = p.node := rfl

theorem node_setRows_of_ne {i : Nat} (h : i ≠ id) (rows : List (Row R)) :
    (p.setRows id rows).node i = p.node i :=
  node_setNode_of_ne p id h _

@[simp] theorem node_setRows_self (rows : List (Row R)) :
    (p.setRows id rows).node id = (p.node id).map fun n => { n with rows } :=
  node_setNode_self p id _

@[simp] theorem node_mark_self (b : Bool) :
    (p.mark id b).node id = (p.node id).map fun n => { n with isDirty := b } :=
  node_setNode_self p id _

end

variable {p p' : Pool K R} {id : Nat}

theorem rows_congr (h : p'.node id = p.node id) : p'.rows id = p.rows id := by
  rw [rows, rows, h]

theorem isDirty_congr (h : p'.node id = p.node id) : p'.isDirty id = p.isDirty id := by
  rw [isDirty, isDirty, h]

@[simp] theorem rows_moveLru (i : Nat) (l : Lru) : (p.moveLru id l).rows i = p.rows i := rfl

@[simp] theorem isDirty_moveLru (i : Nat) (l : Lru) : (p.moveLru id l).isDirty i = p.isDirty i :=
  rfl

@[simp] theorem isDirty_setRows (i : Nat) (rows : List (Row R)) :
    (p.setRows id rows).isDirty i = p.isDirty i := by
  by_cases hi : i = id
  · subst hi
    cases hn : p.node i <;> simp [isDirty, hn]
  · exact isDirty_congr (node_setRows_of_ne p id hi rows)

/-! ## The invariant, operation by operation -/

theorem Inv.init : (Pool.init : Pool K R).Inv :=
  ⟨⟨fun _ => List.nodup_nil, by simp [Pool.init]⟩, by simp [Pool.init, Pool.rows],
    by simp [Pool.init, Pool.isDirty]⟩

theorem mem_moveLru (h : Lists.Linked p.lru) {i : Nat} {l l' : Lru} :
    i ∈ (p.moveLru id l).lru l' ↔ i = id ∧ l' = l ∨ i ≠ id ∧ i ∈ p.lru l' :=
  h.mem_listMove

theorem Inv.except (h : p.Inv) (id : Nat) : p.InvExcept id :=
  ⟨h.linked, fun _ => h.rows, fun _ => h.dirty⟩

namespace InvExcept

/-- A pool that differs in the node and its place. -/
theorem of_node (h : p.InvExcept id) (hlinked : Lists.Linked p'.lru)
    (hnode : ∀ i ≠ id, p'.node i = p.node i)
    (hlru : ∀ i ≠ id, i ∈ p.lru .dirty → i ∈ p'.lru .dirty) : p'.InvExcept id := by
  refine ⟨hlinked, ?_, ?_⟩
  · intro i hi hr
    rw [rows_congr (hnode i hi)] at hr
    rw [isDirty_congr (hnode i hi)]
    exact h.rows hi hr
  · intro i hi hd
    rw [isDirty_congr (hnode i hi)] at hd
    exact hlru i hi (h.dirty hi hd)

theorem inv (h : p.InvExcept id) (hrows : hasDirty (p.rows id) = true → p.isDirty id = true)
    (hdirty : p.isDirty id = true → id ∈ p.lru .dirty) : p.Inv := by
  refine ⟨h.linked, ?_, ?_⟩
  · intro i hr
    by_cases hi : i = id
    · subst hi
      exact hrows hr
    · exact h.rows hi hr
  · intro i hd
    by_cases hi : i = id
    · subst hi
      exact hdirty hd
    · exact h.dirty hi hd

theorem setNode (h : p.InvExcept id) (n : Option (Node K R)) : (p.setNode id n).InvExcept id :=
  h.of_node h.linked (fun _ hi => node_setNode_of_ne p id hi n) fun _ _ hmem => hmem

theorem setRows (h : p.InvExcept id) (rows : List (Row R)) : (p.setRows id rows).InvExcept id :=
  h.setNode _

theorem mark (h : p.InvExcept id) (b : Bool) : (p.mark id b).InvExcept id :=
  h.setNode _

theorem moveLru (h : p.InvExcept id) (l : Lru) : (p.moveLru id l).InvExcept id := by
  apply h.of_node
  · exact h.linked.listMove id l
  · exact fun _ _ => rfl
  · exact fun i hi hmem => (mem_moveLru h.linked).mpr (.inr ⟨hi, hmem⟩)

/-- A node that is purged may have been in any state. -/
theorem purgeNode (h : p.InvExcept id) : (p.purgeNode id).Inv := by
  have hnode : (p.purgeNode id).node id = none := node_setNode_self p id none
  have hexcept : (p.purgeNode id).InvExcept id := by
    apply h.of_node
    · exact h.linked.unlink id
    · exact fun i hi => node_setNode_of_ne p id hi none
    · exact fun i hi hmem => h.linked.mem_unlink.mpr ⟨hi, hmem⟩
  apply hexcept.inv
  · simp [Pool.rows, hnode]
  · simp [isDirty, hnode]

end InvExcept

theorem mem_moveLru_self (h : p.InvExcept id) (l : Lru) : id ∈ (p.moveLru id l).lru l :=
  (mem_moveLru h.linked).mpr (.inl ⟨rfl, rfl⟩)

theorem hasDirty_rows_setRows {rows : List (Row R)}
    (h : hasDirty ((p.setRows id rows).rows id) = true) : hasDirty rows = true := by
  cases hn : p.node id with
  | none => simp [Pool.rows, hn] at h
  | some n => simpa [Pool.rows, hn] using h

theorem Inv.setRows (h : p.Inv) {rows : List (Row R)}
    (hrows : hasDirty rows = true → p.isDirty id = true) : (p.setRows id rows).Inv := by
  apply ((h.except id).setRows rows).inv
  · rw [isDirty_setRows]
    exact fun hd => hrows (hasDirty_rows_setRows hd)
  · rw [isDirty_setRows]
    exact h.dirty

theorem Inv.moveLru (h : p.Inv) {l : Lru} (hl : p.isDirty id = true → l = .dirty) :
    (p.moveLru id l).Inv := by
  apply ((h.except id).moveLru l).inv
  · exact h.rows
  · intro hd
    obtain rfl := hl hd
    exact mem_moveLru_self (h.except id) .dirty

/-- Rows of any kind may be written to a node that is then marked and moved. -/
theorem Inv.markDirty (h : p.Inv) (rows : List (Row R)) :
    (((p.setRows id rows).mark id true).moveLru id .dirty).Inv := by
  have hexcept := ((h.except id).setRows rows).mark true
  apply (hexcept.moveLru .dirty).inv
  · cases hn : p.node id <;> simp [Pool.rows, isDirty, hn]
  · exact fun _ => mem_moveLru_self hexcept .dirty

theorem isDirty_mark_false (p : Pool K R) (id : Nat) : (p.mark id false).isDirty id = false := by
  cases hn : p.node id <;> simp [isDirty, hn]

/-- A node all of whose rows are clean may be unmarked. -/
theorem Inv.markClean (h : p.Inv) {rows : List (Row R)} (hrows : hasDirty rows = false) :
    ((p.setRows id rows).mark id false).Inv := by
  apply (((h.except id).setRows rows).mark false).inv
  · cases hn : p.node id <;> simp [Pool.rows, hn, hrows]
  · simp [isDirty_mark_false]

theorem Inv.purgeNode (h : p.Inv) (id : Nat) : (p.purgeNode id).Inv := (h.except id).purgeNode

variable [DecidableEq K]

/-- What `allocate` gives is a new node, without rows, on the clean list. -/
theorem allocate_eq_some {key : K} {freeNode : Option Nat}
    (hp : p.allocate key freeNode = some (p', id)) :
    p.node id = none ∧ p'.node = update p.node id (some { key }) ∧
      p'.lru = p.lru.listMove id .clean := by
  unfold allocate at hp
  cases freeNode with
  | none => cases hp
  | some i =>
    dsimp only at hp
    split_ifs at hp with hi
    cases hp
    exact ⟨by simpa using hi, rfl, rfl⟩

theorem Inv.allocate (h : p.Inv) {key : K} {freeNode : Option Nat}
    (hp : p.allocate key freeNode = some (p', id)) : p'.Inv := by
  obtain ⟨hfree, hnode, hlru⟩ := allocate_eq_some hp
  have hself : p'.node id = some { key } := by rw [hnode, update_self]
  have hexcept : p'.InvExcept id := by
    apply (h.except id).of_node
    · rw [hlru]
      exact h.linked.listMove id .clean
    · intro i hi
      rw [hnode, update_of_ne hi]
    · intro i hi hmem
      rw [hlru]
      exact h.linked.mem_listMove.mpr (.inr ⟨hi, hmem⟩)
  apply hexcept.inv
  · simp [Pool.rows, hself]
  · simp [isDirty, hself]

theorem Inv.setFilter (h : p.Inv) (key : K) (b : Bool) : (p.setFilter key b).Inv :=
  ⟨h.linked, h.rows, h.dirty⟩

end Pool

end ISearch.BufferProcess
