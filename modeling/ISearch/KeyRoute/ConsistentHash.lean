import ISearch.KeyFormat.Defs
import ISearch.Lib.SortedMap
import Mathlib.Data.List.Perm.Lattice

/-!
# Consistent hashing (`consistent_hash_selector.cc`)

Every node of the cluster has `VIRTUAL_NODE_COUNT` points on a ring of 32-bit numbers, and a key
belongs to the node of the first point behind its hash. Where points of two nodes coincide, the
smaller name has the point; so the owner of a point is determined by the set of the nodes (`Owns`),
and with it the node of every key.
-/

namespace ISearch.KeyRoute

open KeyFormat Option

instance linearOrderUInt32 : LinearOrder UInt32 where
  le_refl := UInt32.le_refl
  le_trans _ _ _ := UInt32.le_trans
  le_antisymm _ _ := UInt32.le_antisymm
  le_total := UInt32.le_total
  lt_iff_le_not_ge a b := by
    rw [UInt32.lt_iff_toNat_lt, UInt32.le_iff_toNat_le, UInt32.le_iff_toNat_le]
    omega
  toDecidableLE := inferInstance
  toDecidableLT := inferInstance
  toDecidableEq := inferInstance

/-- `m_nodes` and `m_nodeNames`. -/
structure ConsistentHashSelector where
  nodes : SortedMap UInt32 Nat
  nodeNames : List Bytes

namespace ConsistentHashSelector

def virtualNodeCount : Nat := 100

/-- The name of the i-th virtual node, `"%s#%d"`. -/
def virtualNode (name : Bytes) (i : Nat) : Bytes := name ++ 35 :: decimal i

def empty : ConsistentHashSelector := ⟨.empty, []⟩

/-- `m_nodeNames[index]`. -/
def nameAt (nodeNames : List Bytes) (index : Nat) : Bytes := nodeNames.getD index []

/-- One round of the loop in `add_node`: of two nodes at a point the smaller name stays. -/
def addPoint (nodeNames : List Bytes) (name : Bytes) (index : Nat) (nodes : SortedMap UInt32 Nat)
    (value : UInt32) : SortedMap UInt32 Nat :=
  match nodes.get? value with
  | some old => if nameAt nodeNames old < name then nodes else nodes.put value index
  | none => nodes.put value index

/-- The points of a node. -/
def points (hash : Bytes → UInt32) (name : Bytes) : List UInt32 :=
  (List.range virtualNodeCount).map fun i => hash (virtualNode name i)

/-- `add_node`; a name that is there already aborts. -/
def addNode (hash : Bytes → UInt32) (s : ConsistentHashSelector) (name : Bytes) :
    Option ConsistentHashSelector :=
  if name ∈ s.nodeNames then none
  else
    let nodeNames := s.nodeNames ++ [name]
    some ⟨(points hash name).foldl (addPoint nodeNames name (nodeNames.length - 1)) s.nodes, nodeNames⟩

def addNodes (hash : Bytes → UInt32) (names : List Bytes) : Option ConsistentHashSelector :=
  names.foldlM (addNode hash) empty

/-- `Select(uint32_t)`: `upper_bound`, and the first point behind the end. -/
def select (s : ConsistentHashSelector) (hash : UInt32) : Bytes :=
  match (s.nodes.entries.filter fun e => hash < e.1).head? with
  | some e => nameAt s.nodeNames e.2
  | none =>
    match s.nodes.entries.head? with
    | some e => nameAt s.nodeNames e.2
    | none => []

/-! ## The owner of a point -/

/-- The node a point belongs to. -/
def ownerAt (nodeNames : List Bytes) (nodes : SortedMap UInt32 Nat) (value : UInt32) :
    Option Bytes :=
  (nodes.get? value).map (nameAt nodeNames)

def owner (s : ConsistentHashSelector) (value : UInt32) : Option Bytes :=
  ownerAt s.nodeNames s.nodes value

/-- The owner of a point once the node `name` has the point too. -/
def shared (name : Bytes) : Option Bytes → Bytes
  | some old => min old name
  | none => name

section Fold

variable {nodeNames : List Bytes} {name : Bytes} {index : Nat} {nodes : SortedMap UInt32 Nat}

theorem ownerAt_addPoint (hindex : nameAt nodeNames index = name) (value v : UInt32) :
    ownerAt nodeNames (addPoint nodeNames name index nodes value) v =
      if v = value then some (shared name (ownerAt nodeNames nodes v))
      else ownerAt nodeNames nodes v := by
  rw [addPoint]
  cases hold : nodes.get? value with
  | none =>
    dsimp only
    rw [ownerAt, SortedMap.get?_put]
    by_cases hv : v = value
    · subst hv
      rw [if_pos rfl, if_pos rfl, ownerAt, hold, map_some, hindex]
      rfl
    · rw [if_neg hv, if_neg hv, ownerAt]
  | some old =>
    dsimp only
    by_cases hlt : nameAt nodeNames old < name
    · rw [if_pos hlt]
      by_cases hv : v = value
      · subst hv
        rw [if_pos rfl, ownerAt, hold, map_some, shared, min_eq_left hlt.le]
      · rw [if_neg hv]
    · rw [if_neg hlt, ownerAt, SortedMap.get?_put]
      by_cases hv : v = value
      · subst hv
        rw [if_pos rfl, if_pos rfl, ownerAt, hold, map_some, map_some, hindex, shared,
          min_eq_right (le_of_not_gt hlt)]
      · rw [if_neg hv, if_neg hv, ownerAt]

theorem shared_shared (name : Bytes) (o : Option Bytes) :
    shared name (some (shared name o)) = shared name o := by
  cases o with
  | none => exact min_self name
  | some old => rw [shared, shared, min_assoc, min_self]

theorem ownerAt_foldl_addPoint (hindex : nameAt nodeNames index = name) (values : List UInt32)
    (v : UInt32) :
    ownerAt nodeNames (values.foldl (addPoint nodeNames name index) nodes) v =
      if v ∈ values then some (shared name (ownerAt nodeNames nodes v))
      else ownerAt nodeNames nodes v := by
  induction values generalizing nodes with
  | nil => rfl
  | cons value values ih =>
    rw [List.foldl_cons, ih, ownerAt_addPoint hindex]
    by_cases hv : v = value
    · subst hv
      rw [if_pos rfl, if_pos List.mem_cons_self]
      by_cases hmem : v ∈ values
      · rw [if_pos hmem, shared_shared]
      · rw [if_neg hmem]
    · rw [if_neg hv]
      simp only [List.mem_cons, hv, false_or]

theorem get?_foldl_addPoint {values : List UInt32} {v : UInt32} {i : Nat}
    (h : (values.foldl (addPoint nodeNames name index) nodes).get? v = some i) :
    i = index ∨ nodes.get? v = some i := by
  induction values generalizing nodes with
  | nil => exact .inr h
  | cons value values ih =>
    refine (ih h).elim .inl fun hstep => ?_
    have hput : (nodes.put value index).get? v = some i → i = index ∨ nodes.get? v = some i := by
      rw [SortedMap.get?_put]
      split_ifs with hv
      · rintro ⟨⟩
        exact .inl rfl
      · exact .inr
    rw [addPoint] at hstep
    cases hold : nodes.get? value with
    | none =>
      rw [hold] at hstep
      exact hput hstep
    | some old =>
      rw [hold] at hstep
      dsimp only at hstep
      split_ifs at hstep
      · exact .inr hstep
      · exact hput hstep

end Fold

/-- The owner of the point `v` when the node `name` is added. -/
def take (hash : Bytes → UInt32) (v : UInt32) (o : Option Bytes) (name : Bytes) : Option Bytes :=
  if v ∈ points hash name then some (shared name o) else o

/-- The map of points has, at each point, the smallest of the nodes with that point. -/
structure Ring (hash : Bytes → UInt32) (s : ConsistentHashSelector) : Prop where
  nodup : s.nodeNames.Nodup
  valid : ∀ v i, s.nodes.get? v = some i → i < s.nodeNames.length
  owner_eq : ∀ v, s.owner v = s.nodeNames.foldl (take hash v) none

theorem ring_empty (hash : Bytes → UInt32) : Ring hash empty := ⟨.nil, nofun, fun _ => rfl⟩

section Add

variable {hash : Bytes → UInt32} {s s' : ConsistentHashSelector} {name : Bytes}

theorem addNode_eq_some (h : s.addNode hash name = some s') :
    name ∉ s.nodeNames ∧ s'.nodeNames = s.nodeNames ++ [name] ∧
      s'.nodes = (points hash name).foldl
        (addPoint s'.nodeNames name s.nodeNames.length) s.nodes := by
  rw [addNode] at h
  generalize points hash name = values at *
  split_ifs at h with hmem
  dsimp only at h
  rw [List.length_append, List.length_singleton, Nat.add_sub_cancel, some_inj] at h
  subst h
  exact ⟨hmem, rfl, rfl⟩

/-- The new node takes its points, unless a smaller name has them. -/
theorem Ring.owner_addNode (hr : Ring hash s) (h : s.addNode hash name = some s') (v : UInt32) :
    s'.owner v = if v ∈ points hash name then some (shared name (s.owner v)) else s.owner v := by
  obtain ⟨-, hnames, hnodes⟩ := addNode_eq_some h
  have hindex : nameAt s'.nodeNames s.nodeNames.length = name := by
    rw [hnames, nameAt]
    simp
  have hold : ownerAt s'.nodeNames s.nodes v = s.owner v := by
    rw [owner, ownerAt, ownerAt]
    cases hget : s.nodes.get? v with
    | none => rfl
    | some i =>
      have hlt := hr.valid v i hget
      rw [map_some, map_some, hnames, nameAt, nameAt, List.getD_eq_getElem?_getD,
        List.getElem?_append_left hlt, List.getD_eq_getElem?_getD]
  rw [owner, hnodes, ownerAt_foldl_addPoint hindex, hold]

theorem Ring.addNode (hr : Ring hash s) (h : s.addNode hash name = some s') : Ring hash s' := by
  obtain ⟨hnew, hnames, hnodes⟩ := addNode_eq_some h
  refine ⟨?_, fun v i hget => ?_, fun v => ?_⟩
  · rw [hnames, List.nodup_append_comm]
    exact List.nodup_cons.mpr ⟨hnew, hr.nodup⟩
  · rw [hnames, List.length_append, List.length_singleton]
    rw [hnodes] at hget
    rcases get?_foldl_addPoint hget with rfl | hold
    · exact Nat.lt_succ_self _
    · exact (hr.valid v i hold).trans (Nat.lt_succ_self _)
  · rw [hr.owner_addNode h, hr.owner_eq, hnames, List.foldl_append]
    rfl

theorem Ring.foldlM (hr : Ring hash s) {names : List Bytes}
    (h : names.foldlM (ConsistentHashSelector.addNode hash) s = some s') :
    Ring hash s' ∧ s'.nodeNames = s.nodeNames ++ names := by
  induction names generalizing s with
  | nil =>
    cases h
    exact ⟨hr, (List.append_nil _).symm⟩
  | cons name names ih =>
    obtain ⟨s₁, hadd, hrest⟩ := bind_eq_some_iff.mp h
    obtain ⟨hr', hnames⟩ := ih (hr.addNode hadd) hrest
    obtain ⟨-, hnames₁, -⟩ := addNode_eq_some hadd
    exact ⟨hr', by rw [hnames, hnames₁, List.append_assoc, List.singleton_append]⟩

/-- The nodes are added unless a name comes twice. -/
theorem foldlM_isSome (hash : Bytes → UInt32) {l : List Bytes} (h : (s.nodeNames ++ l).Nodup) :
    (l.foldlM (addNode hash) s).isSome = true := by
  induction l generalizing s with
  | nil => rfl
  | cons name names ih =>
    have hnew : name ∉ s.nodeNames := fun hmem =>
      (List.nodup_append.mp h).2.2 name hmem name List.mem_cons_self rfl
    have hadd : ∃ s₁, s.addNode hash name = some s₁ := ⟨_, if_neg hnew⟩
    obtain ⟨s₁, hadd⟩ := hadd
    obtain ⟨-, hnames, -⟩ := addNode_eq_some hadd
    rw [List.foldlM_cons, hadd]
    refine ih ?_
    rw [hnames, List.append_assoc, List.singleton_append]
    exact h

theorem addNodes_eq_none (hash : Bytes → UInt32) {names : List Bytes} :
    addNodes hash names = none ↔ ¬names.Nodup := by
  constructor
  · intro hnone hnodup
    have hsome : (addNodes hash names).isSome = true := foldlM_isSome hash hnodup
    rw [hnone] at hsome
    cases hsome
  · intro hdup
    refine eq_none_iff_forall_ne_some.mpr fun s hs => hdup ?_
    obtain ⟨hr, hnames⟩ := (ring_empty hash).foldlM hs
    rw [← List.nil_append names]
    exact hnames ▸ hr.nodup

end Add

/-! ## The node of a key -/

/-- The owner of the first point with a property. -/
def first (s : ConsistentHashSelector) (p : UInt32 → Bool) : Option Bytes :=
  (s.nodes.entries.filter fun e => p e.1).head?.map fun e => nameAt s.nodeNames e.2

section Select

variable {hash : Bytes → UInt32} {s s' : ConsistentHashSelector} {name : Bytes}

theorem select_eq (s : ConsistentHashSelector) (h : UInt32) :
    s.select h = ((s.first fun v => h < v).or (s.first fun _ => true)).getD [] := by
  rw [select, first, first, List.filter_true]
  cases (s.nodes.entries.filter fun e => h < e.1).head? with
  | some e => rfl
  | none =>
    cases s.nodes.entries.head? with
    | some e => rfl
    | none => rfl

theorem isSome_owner {v : UInt32} : (s.owner v).isSome = (s.nodes.get? v).isSome := by
  rw [owner, ownerAt, isSome_map]

theorem first_eq_some {p : UInt32 → Bool} : s.first p = some name ↔
    ∃ v, s.owner v = some name ∧ p v = true ∧
      ∀ v', (s.owner v').isSome = true → p v' = true → v ≤ v' := by
  simp only [isSome_owner]
  constructor
  · intro h
    obtain ⟨⟨v, i⟩, hhead, hname⟩ := map_eq_some_iff.mp h
    obtain ⟨hget, hp, hfirst⟩ := SortedMap.head?_filter_eq_some.mp hhead
    exact ⟨v, by rw [owner, ownerAt, hget, map_some, hname], hp, hfirst⟩
  · rintro ⟨v, howner, hp, hfirst⟩
    obtain ⟨i, hget, hname⟩ := map_eq_some_iff.mp howner
    rw [first, SortedMap.head?_filter_eq_some.mpr ⟨hget, hp, hfirst⟩, map_some, hname]

theorem first_eq_none {p : UInt32 → Bool} :
    s.first p = none ↔ ∀ v, (s.owner v).isSome = true → p v = false := by
  simp only [isSome_owner]
  rw [first, map_eq_none_iff]
  exact SortedMap.head?_filter_eq_none

/-- The owners of the points decide the nodes of the keys. -/
theorem first_congr (h : ∀ v, s'.owner v = s.owner v) (p : UInt32 → Bool) :
    s'.first p = s.first p := by
  ext name
  simp only [first_eq_some, h]

theorem isSome_foldl_take {v : UInt32} {o : Option Bytes} (h : o.isSome = true) (names : List Bytes) :
    (names.foldl (take hash v) o).isSome = true := by
  induction names generalizing o with
  | nil => exact h
  | cons name names ih =>
    apply ih
    rw [take]
    split_ifs
    · rfl
    · exact h

theorem Ring.mem_of_owner (hr : Ring hash s) {v : UInt32} (h : s.owner v = some name) :
    name ∈ s.nodeNames := by
  obtain ⟨i, hget, rfl⟩ := map_eq_some_iff.mp h
  rw [nameAt, List.getD_eq_getElem?_getD, List.getElem?_eq_getElem (hr.valid v i hget),
    getD_some]
  exact List.getElem_mem _

/-- A key goes to a node, if there is one. -/
theorem Ring.select_mem (hr : Ring hash s) (x : UInt32) :
    s.select x ∈ s.nodeNames ∨ s.nodeNames = [] ∧ s.select x = [] := by
  rw [select_eq]
  cases hfirst : s.first fun _ => true with
  | some name =>
    left
    cases hnext : s.first fun v => x < v with
    | some name' =>
      obtain ⟨v, howner, -⟩ := first_eq_some.mp hnext
      exact hr.mem_of_owner howner
    | none =>
      obtain ⟨v, howner, -⟩ := first_eq_some.mp hfirst
      exact hr.mem_of_owner howner
  | none =>
    right
    have hnone := first_eq_none.mp hfirst
    constructor
    · cases hnames : s.nodeNames with
      | nil => rfl
      | cons name names =>
        have hpoint : hash (virtualNode name 0) ∈ points hash name :=
          List.mem_map.mpr ⟨0, List.mem_range.mpr (by decide), rfl⟩
        have howner : (s.owner (hash (virtualNode name 0))).isSome = true := by
          rw [hr.owner_eq, hnames, List.foldl_cons, take, if_pos hpoint]
          exact isSome_foldl_take rfl names
        cases hnone _ howner
    · have hnext : (s.first fun v => x < v) = none :=
        first_eq_none.mpr fun v howner => nomatch hnone v howner
      rw [hnext]
      rfl

theorem take_right_comm (v : UInt32) (o : Option Bytes) (name name' : Bytes) :
    take hash v (take hash v o name) name' = take hash v (take hash v o name') name := by
  rw [take, take, take, take]
  by_cases hv : v ∈ points hash name
  · by_cases hv' : v ∈ points hash name'
    · rw [if_pos hv, if_pos hv', if_pos hv', if_pos hv]
      cases o with
      | none => rw [shared, shared, shared, shared, min_comm]
      | some old => rw [shared, shared, shared, shared, min_right_comm]
    · rw [if_pos hv, if_neg hv', if_neg hv', if_pos hv]
  · by_cases hv' : v ∈ points hash name'
    · rw [if_neg hv, if_pos hv', if_neg hv]
    · rw [if_neg hv, if_neg hv', if_neg hv]

theorem select_perm {names names' : List Bytes} (hperm : names.Perm names') :
    (addNodes hash names).map select = (addNodes hash names').map select := by
  cases hs : addNodes hash names with
  | none =>
    rw [addNodes_eq_none hash, hperm.nodup_iff, ← addNodes_eq_none hash] at hs
    rw [hs]
  | some s =>
    cases hs' : addNodes hash names' with
    | none =>
      rw [addNodes_eq_none hash, ← hperm.nodup_iff, ← addNodes_eq_none hash, hs] at hs'
      cases hs'
    | some s' =>
      obtain ⟨hr, hnames⟩ := (ring_empty hash).foldlM hs
      obtain ⟨hr', hnames'⟩ := (ring_empty hash).foldlM hs'
      have howner : ∀ v, s'.owner v = s.owner v := by
        intro v
        rw [hr'.owner_eq, hr.owner_eq, hnames, hnames']
        exact (hperm.symm.foldl_eq' (fun _ _ _ _ o => take_right_comm v o _ _) none)
      rw [map_some, map_some, some_inj]
      funext h
      rw [select_eq, select_eq, first_congr howner, first_congr howner]

/-- A point that does not belong to the new node belonged to the same node before. -/
theorem Ring.owner_of_ne (hr : Ring hash s) (h : s.addNode hash name = some s') {v : UInt32}
    {other : Bytes} (hne : other ≠ name) (howner : s'.owner v = some other) :
    s.owner v = some other := by
  rw [hr.owner_addNode h] at howner
  split_ifs at howner
  · cases hold : s.owner v with
    | none =>
      rw [hold] at howner
      exact absurd (some_inj.mp howner).symm hne
    | some old =>
      rw [hold, some_inj, shared] at howner
      rcases min_choice old name with hmin | hmin
      · rw [← howner, hmin]
      · exact absurd (howner.symm.trans hmin) hne
  · exact howner

theorem Ring.isSome_owner_addNode (hr : Ring hash s) (h : s.addNode hash name = some s')
    {v : UInt32} (hv : (s.owner v).isSome = true) : (s'.owner v).isSome = true := by
  rw [hr.owner_addNode h]
  split_ifs
  · rfl
  · exact hv

theorem Ring.first_of_ne (hr : Ring hash s) (h : s.addNode hash name = some s')
    {p : UInt32 → Bool} (hne : s'.first p ≠ some name) : s.first p = s'.first p := by
  cases hfirst : s'.first p with
  | none =>
    rw [first_eq_none] at hfirst ⊢
    exact fun v hv => hfirst v (hr.isSome_owner_addNode h hv)
  | some other =>
    rw [hfirst, Ne, some_inj] at hne
    obtain ⟨v, howner, hp, hleast⟩ := first_eq_some.mp hfirst
    exact first_eq_some.mpr ⟨v, hr.owner_of_ne h hne howner, hp, fun v' hv' =>
      hleast v' (hr.isSome_owner_addNode h hv')⟩

theorem Ring.select_addNode (hr : Ring hash s) (h : s.addNode hash name = some s') {x : UInt32}
    (hne : s'.select x ≠ name) : s.select x = s'.select x := by
  rw [select_eq] at hne ⊢
  have hbehind : s'.first (fun v => x < v) ≠ some name := by
    intro heq
    rw [heq] at hne
    exact hne rfl
  rw [select_eq, hr.first_of_ne h hbehind]
  cases hfirst : s'.first fun v => x < v with
  | some other => rfl
  | none =>
    rw [hfirst] at hne
    have hstart : s'.first (fun _ => true) ≠ some name := by
      intro heq
      rw [heq] at hne
      exact hne rfl
    rw [hr.first_of_ne h hstart]

end Select

/-- The node of a key does not depend on the order of the nodes, and a node that is added takes keys
over only to itself. -/
theorem select_addNodes (hash : Bytes → UInt32) :
    (∀ names names' : List Bytes, names.Perm names' →
      (addNodes hash names).map select = (addNodes hash names').map select) ∧
    ∀ (names : List Bytes) (name : Bytes) (s s' : ConsistentHashSelector),
      addNodes hash names = some s → s.addNode hash name = some s' → ∀ key : Bytes,
        s'.select (hash key) ≠ s.select (hash key) → s'.select (hash key) = name := by
  refine ⟨fun _ _ => select_perm, fun names name s s' hs hadd key hchange => ?_⟩
  by_contra hne
  obtain ⟨hr, -⟩ := (ring_empty hash).foldlM hs
  exact hchange (hr.select_addNode hadd hne).symm

/-- A hash under which all points of a node coincide. -/
def firstByte (key : Bytes) : UInt32 := (key.headD 0).toUInt32

theorem select_addNodes_firstByte : ∃ s s', addNodes firstByte [[66], [67]] = some s ∧
    s.addNode firstByte [65] = some s' ∧ ∀ key : Bytes,
      s'.select (firstByte key) ≠ s.select (firstByte key) → s'.select (firstByte key) = [65] := by
  obtain ⟨s, hs⟩ := isSome_iff_exists.mp
    (foldlM_isSome firstByte (s := empty) (l := [[66], [67]]) (by decide))
  obtain ⟨-, hnames⟩ := (ring_empty firstByte).foldlM hs
  have hadd : ∃ s', s.addNode firstByte [65] = some s' := ⟨_, if_neg (by rw [hnames]; decide)⟩
  obtain ⟨s', hadd⟩ := hadd
  exact ⟨s, s', hs, hadd, (select_addNodes firstByte).2 _ _ _ _ hs hadd⟩

end ConsistentHashSelector

end ISearch.KeyRoute
