import ISearch.Lib.LinkedLists
import ISearch.Lib.Run
import ISearch.Cache.NodeSet

/-!
# The node pool (`ng_info.cc`)

Groups of 256 nodes that are created when no group has a free node left. A group is known by its
number; group 0 holds the heads of the LRU lists and is in neither list. The pool keeps two static
variables, the number of groups that it creates at once and whether a creation has failed.
-/

namespace ISearch.NodePool

open Function

/-- The size of the cache memory, as `check_cache_info` admits it. -/
def MemSize := { n : Nat // 64 * 2 ^ 20 ≤ n ∧ n ≤ 64 * 2 ^ 30 }

/-- `NODE_SET::Size`: the header with its four attribute offsets, and the attributes. -/
def nodeSetSize : Nat := 48 + (256 * 4 + 256 * 4 * 2 + 256 * 8 + 256 / 8)

/-- The configured number of groups, as `main.cc` corrects it. -/
def preAllocNum (n : Int) : Nat := if n ≤ 1 then 1 else if 2 ^ 12 ≤ n then 1 else n.toNat

inductive Place
  | free
  | full
deriving DecidableEq

structure Node where
  owner : Nat
  index : Nat
deriving DecidableEq

structure NGInfo where
  groups : Nat → NodeSet
  lists : Lists Place Nat
  minId : Nat
  usedNg : Nat
  usedNode : Nat
  step : Nat
  fail : Bool

namespace NGInfo

/-- The pool of `InitHeader`: the reserved group has given out its three nodes. -/
def init (preAlloc : Int) : NGInfo where
  groups g := if g = 0 then { NodeSet.init 0 with free := 3 } else NodeSet.init 0
  lists _ := []
  minId := 256
  usedNg := 1
  usedNode := 0
  step := preAllocNum preAlloc
  fail := false

def nodeId (p : NGInfo) (n : Node) : Nat := (p.groups n.owner).nodeId n.index

/-- `allocate_ng`: the memory of a group comes from `M_CALLOC`, which fails at the latest when the
groups do not fit into the memory. -/
def allocateNg (m : MemSize) (p : NGInfo) (ok : Bool) : Option (Nat × NGInfo) :=
  if ok ∧ (p.usedNg + 1) * nodeSetSize ≤ m.1 then
    some (p.usedNg, { p with
      groups := update p.groups p.usedNg (NodeSet.init p.minId)
      minId := (p.minId + 256) % 2 ^ 32
      usedNg := (p.usedNg + 1) % 2 ^ 32 })
  else none

def findFreeNg (p : NGInfo) : Option Nat := (p.lists .free).head?

/-- The loop that creates groups, from its round `i` on with `k` rounds left; `none` is the return
of a node that is not valid. -/
def preAllocate (m : MemSize) (ok : Nat → Bool) : Nat → Nat → NGInfo → Option NGInfo
  | 0, _, p => some p
  | k + 1, i, p =>
    match p.allocateNg m (ok i) with
    | none => if i = 0 then none else some { p with fail := true, step := 1 }
    | some (g, p) => preAllocate m ok k (i + 1) { p with lists := p.lists.listMove g .free }

/-- `allocate_node` once a group is found. -/
def allocateFrom (p : NGInfo) (g : Nat) : Option Node × NGInfo :=
  match (p.groups g).allocateNode with
  | none =>
    (none, if (p.groups g).isFull then { p with lists := p.lists.listMove g .full } else p)
  | some (i, s) =>
    (some ⟨g, i⟩, { p with
      groups := update p.groups g s
      lists := if s.isFull then p.lists.listMove g .full else p.lists
      usedNode := (p.usedNode + 1) % 2 ^ 32 })

/-- `none` is an access through a null pointer. -/
def allocateNode (m : MemSize) (ok : Nat → Bool) (p : NGInfo) : Option (Option Node × NGInfo) :=
  match p.findFreeNg with
  | some g => some (p.allocateFrom g)
  | none =>
    match preAllocate m ok p.step 0 p with
    | none => some (none, p)
    | some p =>
      match p.findFreeNg with
      | none => none
      | some g =>
        some ({ p with
          step := if p.step < 256 ∧ p.fail = false then 2 * p.step else p.step }.allocateFrom g)

def releaseNode (p : NGInfo) (n : Node) : NGInfo :=
  { p with
    groups := update p.groups n.owner ((p.groups n.owner).release n.index)
    lists := if (p.groups n.owner).isFull then p.lists.listMove n.owner .free else p.lists
    usedNode := (p.usedNode + 2 ^ 32 - 1) % 2 ^ 32 }

end NGInfo

/-- The pool, and the nodes that were allocated and not released. -/
structure State where
  pool : NGInfo
  live : List Node := []

inductive Op
  | allocate (ok : Nat → Bool)
  | release (n : Node)
  /-- The owner of a node writes its attributes. -/
  | write (n : Node) (a : Attrs)

namespace State

def step (m : MemSize) (s : State) : Op → Option State
  | .allocate ok => (s.pool.allocateNode m ok).map fun
    | (some n, pool) => ⟨pool, n :: s.live⟩
    | (none, pool) => ⟨pool, s.live⟩
  | .release n => some ⟨s.pool.releaseNode n, s.live.erase n⟩
  | .write n a =>
    let group := s.pool.groups n.owner
    let group := { group with nodes := update group.nodes n.index a }
    some { s with pool := { s.pool with groups := update s.pool.groups n.owner group } }

/-- Only live nodes are released and written. -/
def OwnsNode (s : State) : Op → Prop
  | .allocate _ => True
  | .release n => n ∈ s.live
  | .write n _ => n ∈ s.live

/-- What the pool owes. -/
structure Good (s : State) : Prop where
  /-- No two live nodes have one id. -/
  ids : (s.live.map s.pool.nodeId).Nodup
  /-- The slots that a group can give out are those without a live node. -/
  slots : ∀ g, 1 ≤ g → g < s.pool.usedNg → ∀ i < 256,
    (i ∈ (s.pool.groups g).dele ∨ (s.pool.groups g).free ≤ i ↔ ⟨g, i⟩ ∉ s.live)
  free : ∀ g, 1 ≤ g → g < s.pool.usedNg →
    (g ∈ s.pool.lists .free ↔ (s.pool.groups g).isFull = false)
  full : ∀ g, 1 ≤ g → g < s.pool.usedNg →
    (g ∈ s.pool.lists .full ↔ (s.pool.groups g).isFull = true)
  used : s.pool.usedNode = s.live.length

end State

/-! ## The invariant -/

namespace NGInfo

structure Inv (m : MemSize) (p : NGInfo) (live : List Node) : Prop where
  linked : p.lists.Linked
  place : ∀ g l, g ∈ p.lists l ↔
    1 ≤ g ∧ g < p.usedNg ∧ ((p.groups g).isFull = true ↔ l = .full)
  group : ∀ g, 1 ≤ g → g < p.usedNg → (p.groups g).Inv fun i => ⟨g, i⟩ ∈ live
  nid : ∀ g, g < p.usedNg → (p.groups g).nid = 256 * g
  owner : ∀ n ∈ live, 1 ≤ n.owner ∧ n.owner < p.usedNg
  nodup : live.Nodup
  minId : p.minId = 256 * p.usedNg
  fits : p.usedNg * nodeSetSize ≤ m.1
  pos : 1 ≤ p.usedNg
  used : p.usedNode = live.length
  step : 0 < p.step

variable {m : MemSize} {p : NGInfo} {live : List Node}

/-- In 64G the ids do not run out. -/
theorem usedNg_lt {n : Nat} (h : n * nodeSetSize ≤ m.1) : 256 * n < 2 ^ 32 := by
  have hm := m.2.2
  have hsize : nodeSetSize = 5200 := rfl
  rw [hsize] at h
  omega

theorem Inv.nodeId_eq (h : p.Inv m live) {n : Node} (hn : n ∈ live) :
    p.nodeId n = 256 * n.owner + n.index ∧ n.index < 256 := by
  obtain ⟨hpos, hlt⟩ := h.owner n hn
  have hbound := usedNg_lt h.fits
  have hi : n.index < 256 := (h.group _ hpos hlt).lt_of_live hn
  refine ⟨?_, hi⟩
  rw [nodeId, NodeSet.nodeId, h.nid _ hlt, Nat.mod_eq_of_lt (by omega)]

theorem Inv.ids_nodup (h : p.Inv m live) : (live.map p.nodeId).Nodup := by
  refine h.nodup.map_on ?_
  intro n hn n' hn' heq
  obtain ⟨hid, hi⟩ := h.nodeId_eq hn
  obtain ⟨hid', hi'⟩ := h.nodeId_eq hn'
  obtain ⟨g, i⟩ := n
  obtain ⟨g', i'⟩ := n'
  rw [hid, hid'] at heq
  simp only at heq hi hi'
  obtain ⟨rfl, rfl⟩ : g = g' ∧ i = i' := by omega
  rfl

theorem Inv.length_lt (h : p.Inv m live) : live.length < 2 ^ 32 := by
  have hsub : live.map p.nodeId ⊆ List.range (256 * p.usedNg) := by
    intro id hid
    obtain ⟨n, hn, rfl⟩ := List.mem_map.mp hid
    obtain ⟨heq, hi⟩ := h.nodeId_eq hn
    have hlt := (h.owner n hn).2
    rw [List.mem_range, heq]
    omega
  have hle := (List.subperm_of_subset h.ids_nodup hsub).length_le
  rw [List.length_map, List.length_range] at hle
  exact lt_of_le_of_lt hle (usedNg_lt h.fits)

/-- The pool of a state that satisfies the invariant keeps its promises. -/
theorem Inv.good (h : p.Inv m live) : (⟨p, live⟩ : State).Good where
  ids := h.ids_nodup
  slots g hpos hlt i hi := by
    have hlive := (h.group g hpos hlt).live_iff i
    change _ ↔ ¬(⟨g, i⟩ : Node) ∈ live
    rw [hlive]
    change i ∈ (p.groups g).dele ∨ (p.groups g).free ≤ i ↔ _
    rw [← not_lt]
    tauto
  free g hpos hlt := by
    rw [h.place]
    simp [hpos, hlt]
  full g hpos hlt := by
    rw [h.place]
    simp [hpos, hlt]
  used := h.used

theorem Inv.setStep (h : p.Inv m live) {step : Nat} (fail : Bool) (hstep : 0 < step) :
    Inv m { p with step, fail } live :=
  ⟨h.linked, h.place, h.group, h.nid, h.owner, h.nodup, h.minId, h.fits, h.pos, h.used, hstep⟩

/-- A group changes, and with it its live nodes and its place. -/
theorem Inv.setGroup (h : p.Inv m live) {g : Nat} (hpos : 1 ≤ g) (hlt : g < p.usedNg)
    {s : NodeSet} (hnid : s.nid = (p.groups g).nid) {live' : List Node}
    (hgroup : s.Inv fun i => ⟨g, i⟩ ∈ live')
    (hother : ∀ n : Node, n.owner ≠ g → (n ∈ live' ↔ n ∈ live)) (hnodup : live'.Nodup)
    {lists : Lists Place Nat} (hlinked : lists.Linked)
    (hplace : ∀ g' l, g' ∈ lists l ↔
      g' = g ∧ (s.isFull = true ↔ l = .full) ∨ g' ≠ g ∧ g' ∈ p.lists l)
    {usedNode : Nat} (hused : usedNode = live'.length) :
    Inv m { p with groups := update p.groups g s, lists, usedNode } live' where
  linked := hlinked
  place g' l := by
    rw [hplace]
    by_cases hg : g' = g
    · subst hg
      simp [hpos, hlt]
    · simp [hg, h.place]
  group g' hpos' hlt' := by
    by_cases hg : g' = g
    · subst hg
      simpa using hgroup
    · simp only [update_of_ne hg]
      exact (h.group g' hpos' hlt').congr fun i => hother ⟨g', i⟩ hg
  nid g' hlt' := by
    by_cases hg : g' = g
    · subst hg
      simp [hnid, h.nid g' hlt]
    · simp only [update_of_ne hg]
      exact h.nid g' hlt'
  owner n hn := by
    by_cases hg : n.owner = g
    · rw [hg]
      exact ⟨hpos, hlt⟩
    · exact h.owner n ((hother n hg).mp hn)
  nodup := hnodup
  minId := h.minId
  fits := h.fits
  pos := h.pos
  used := hused
  step := h.step

/-- The place of a group that becomes full, or stays where it is. -/
theorem Inv.mem_move (h : p.Inv m live) {g : Nat} {s : NodeSet} (hg : g ∈ p.lists .free)
    (g' : Nat) (l : Place) :
    g' ∈ (if s.isFull then p.lists.listMove g .full else p.lists) l ↔
      g' = g ∧ (s.isFull = true ↔ l = .full) ∨ g' ≠ g ∧ g' ∈ p.lists l := by
  split
  · rename_i hfull
    rw [h.linked.mem_listMove]
    simp [hfull]
  · rename_i hfull
    have hl : g ∈ p.lists l ↔ l = .free :=
      ⟨fun hmem => h.linked.unique hmem hg, fun hl => hl ▸ hg⟩
    by_cases heq : g' = g
    · subst heq
      rw [hl]
      cases l <;> simp [hfull]
    · simp [heq]

theorem Inv.linked_move (h : p.Inv m live) (b : Bool) (g : Nat) (l : Place) :
    Lists.Linked (if b then p.lists.listMove g l else p.lists) := by
  split
  · exact h.linked.listMove g l
  · exact h.linked

/-- A group of the free list gives out a node that is not live. -/
theorem Inv.allocateFrom (h : p.Inv m live) {g : Nat} (hg : g ∈ p.lists .free) :
    ∃ n p', p.allocateFrom g = (some n, p') ∧ p'.Inv m (n :: live) := by
  obtain ⟨hpos, hlt, hfull⟩ := (h.place g .free).mp hg
  have hfull : (p.groups g).isFull = false := by simpa using hfull
  obtain ⟨i, s, halloc, hfresh, hnid, hinv⟩ := (h.group g hpos hlt).allocateNode hfull
  simp only [NGInfo.allocateFrom, halloc]
  refine ⟨⟨g, i⟩, _, rfl, ?_⟩
  have hlive : ∀ n : Node, n.owner ≠ g → (n ∈ ⟨g, i⟩ :: live ↔ n ∈ live) := by
    intro n hn
    rw [List.mem_cons, or_iff_right]
    rintro rfl
    exact hn rfl
  have hgroup : s.Inv fun j => ⟨g, j⟩ ∈ (⟨g, i⟩ :: live : List Node) :=
    hinv.congr fun j => by simp
  have hnew := h.setGroup hpos hlt hnid hgroup hlive (List.nodup_cons.mpr ⟨hfresh, h.nodup⟩)
    (h.linked_move s.isFull g .full) (h.mem_move hg) rfl
  have hcount : (p.usedNode + 1) % 2 ^ 32 = (⟨g, i⟩ :: live : List Node).length := by
    rw [h.used]
    exact Nat.mod_eq_of_lt hnew.length_lt
  rw [hcount]
  exact hnew

/-- A new group goes to the free list. -/
theorem Inv.allocateNg (h : p.Inv m live) {ok : Bool} {g : Nat} {p' : NGInfo}
    (halloc : p.allocateNg m ok = some (g, p')) :
    Inv m { p' with lists := p'.lists.listMove g .free } live := by
  rw [NGInfo.allocateNg] at halloc
  split at halloc
  · rename_i hok
    cases halloc
    have hbound := usedNg_lt hok.2
    have hminId := h.minId
    have hpos := h.pos
    have hng : (p.usedNg + 1) % 2 ^ 32 = p.usedNg + 1 := Nat.mod_eq_of_lt (by omega)
    have hmin : (p.minId + 256) % 2 ^ 32 = 256 * (p.usedNg + 1) := by
      rw [Nat.mod_eq_of_lt (by omega)]
      omega
    simp only [hng, hmin]
    have hnew : ∀ g, g < p.usedNg + 1 → g ≠ p.usedNg → g < p.usedNg := by omega
    refine ⟨h.linked.listMove _ _, ?_, ?_, ?_, ?_, h.nodup, rfl, hok.2, by simp, h.used, h.step⟩
    · intro g l
      rw [h.linked.mem_listMove]
      by_cases hg : g = p.usedNg
      · subst hg
        have hfull : (NodeSet.init p.minId).isFull = false := rfl
        cases l <;> simp [hpos, hfull]
      · simp only [update_of_ne hg, h.place]
        have := hnew g
        constructor
        · rintro (⟨hg', -⟩ | ⟨-, h₁, h₂, h₃⟩)
          · exact absurd hg' hg
          · exact ⟨h₁, by omega, h₃⟩
        · rintro ⟨h₁, h₂, h₃⟩
          exact Or.inr ⟨hg, h₁, hnew g h₂ hg, h₃⟩
    · intro g hg₁ hg₂
      by_cases hg : g = p.usedNg
      · subst hg
        simp only [update_self]
        refine (NodeSet.inv_init _).congr fun i => ⟨fun hn => ?_, False.elim⟩
        exact lt_irrefl _ (h.owner _ hn).2
      · simp only [update_of_ne hg]
        exact h.group g hg₁ (hnew g hg₂ hg)
    · intro g hg₂
      by_cases hg : g = p.usedNg
      · subst hg
        simp only [update_self]
        exact hminId
      · simp only [update_of_ne hg]
        exact h.nid g (hnew g hg₂ hg)
    · intro n hn
      obtain ⟨h₁, h₂⟩ := h.owner n hn
      exact ⟨h₁, Nat.lt_succ_of_lt h₂⟩
  · cases halloc

theorem Inv.preAllocate (h : p.Inv m live) {ok : Nat → Bool} {k i : Nat} {p' : NGInfo}
    (hfree : p.lists .free ≠ [] ∨ i = 0 ∧ 0 < k)
    (hpre : NGInfo.preAllocate m ok k i p = some p') :
    p'.Inv m live ∧ p'.lists .free ≠ [] := by
  induction k generalizing i p with
  | zero =>
    cases hpre
    exact ⟨h, hfree.resolve_right fun hk => lt_irrefl _ hk.2⟩
  | succ k ih =>
    rw [NGInfo.preAllocate] at hpre
    cases halloc : p.allocateNg m (ok i) with
    | none =>
      simp only [halloc] at hpre
      split at hpre
      · cases hpre
      · rename_i hi
        cases hpre
        exact ⟨h.setStep true Nat.one_pos, hfree.resolve_right fun hk => hi hk.1⟩
    | some gp =>
      obtain ⟨g, p₁⟩ := gp
      simp only [halloc] at hpre
      exact ih (h.allocateNg halloc) (Or.inl (by simp [Lists.listMove])) hpre

/-- An allocation ends with a node that was not live, or without one. -/
theorem Inv.allocateNode (h : p.Inv m live) (ok : Nat → Bool) :
    ∃ n p', p.allocateNode m ok = some (n, p') ∧ p'.Inv m (n.toList ++ live) := by
  rw [NGInfo.allocateNode]
  cases hfind : p.findFreeNg with
  | some g =>
    obtain ⟨n, p', hfrom, hinv⟩ := h.allocateFrom (List.mem_of_head? hfind)
    exact ⟨some n, p', by simp only [hfrom], hinv⟩
  | none =>
    cases hpre : NGInfo.preAllocate m ok p.step 0 p with
    | none => exact ⟨none, p, rfl, h⟩
    | some p₁ =>
      obtain ⟨h₁, hne⟩ := h.preAllocate (Or.inr ⟨rfl, h.step⟩) hpre
      obtain ⟨g, rest, hlist⟩ := List.exists_cons_of_ne_nil hne
      have hfind₁ : p₁.findFreeNg = some g := by rw [findFreeNg, hlist, List.head?_cons]
      have hg : g ∈ p₁.lists .free := List.mem_of_head? hfind₁
      have hstep : 0 < if p₁.step < 256 ∧ p₁.fail = false then 2 * p₁.step else p₁.step := by
        have := h₁.step
        split <;> omega
      obtain ⟨n, p', hfrom, hinv⟩ := (h₁.setStep p₁.fail hstep).allocateFrom hg
      refine ⟨some n, p', ?_, hinv⟩
      simp only [hfind₁, hfrom]

theorem Inv.releaseNode (h : p.Inv m live) {n : Node} (hn : n ∈ live) :
    (p.releaseNode n).Inv m (live.erase n) := by
  obtain ⟨g, i⟩ := n
  obtain ⟨hpos, hlt⟩ := h.owner _ hn
  obtain ⟨-, hnid, hfull, hinv⟩ := (h.group g hpos hlt).release hn
  have hother : ∀ n : Node, n.owner ≠ g → (n ∈ live.erase ⟨g, i⟩ ↔ n ∈ live) := by
    intro n hne
    rw [h.nodup.mem_erase_iff, and_iff_right]
    rintro rfl
    exact hne rfl
  have hgroup : ((p.groups g).release i).Inv fun j => ⟨g, j⟩ ∈ live.erase ⟨g, i⟩ := by
    refine hinv.congr fun j => ?_
    rw [h.nodup.mem_erase_iff]
    simp
  have hplace : ∀ g' l, g' ∈ (if (p.groups g).isFull then p.lists.listMove g .free
      else p.lists) l ↔ g' = g ∧ (((p.groups g).release i).isFull = true ↔ l = .full) ∨
        g' ≠ g ∧ g' ∈ p.lists l := by
    intro g' l
    split
    · rw [h.linked.mem_listMove]
      cases l <;> simp [hfull]
    · rename_i hnot
      by_cases heq : g' = g
      · subst heq
        rw [h.place]
        cases l <;> simp [hfull, hpos, hlt, hnot]
      · simp [heq]
  have hlen : 0 < live.length := List.length_pos_of_mem hn
  have hcount : (p.usedNode + 2 ^ 32 - 1) % 2 ^ 32 = (live.erase ⟨g, i⟩).length := by
    have hbound := h.length_lt
    rw [List.length_erase_of_mem hn, h.used]
    omega
  exact h.setGroup hpos hlt hnid hgroup hother (h.nodup.erase _)
    (h.linked_move (p.groups g).isFull g .free) hplace hcount

theorem inv_init (m : MemSize) (preAlloc : Int) : (init preAlloc).Inv m [] := by
  refine ⟨⟨fun _ => List.nodup_nil, fun hx _ => nomatch hx⟩, ?_, ?_, ?_, nofun, List.nodup_nil,
    rfl, ?_, le_rfl, rfl, ?_⟩
  · intro g l
    change g ∈ [] ↔ 1 ≤ g ∧ g < 1 ∧ _
    simp only [List.not_mem_nil, false_iff]
    omega
  · intro g hpos hlt
    exact absurd hpos (not_le.mpr hlt)
  · intro g hlt
    obtain rfl : g = 0 := Nat.lt_one_iff.mp hlt
    rfl
  · have hm := m.2.1
    have hsize : nodeSetSize = 5200 := rfl
    change 1 * nodeSetSize ≤ m.1
    omega
  · change 0 < preAllocNum preAlloc
    rw [preAllocNum]
    split
    · exact Nat.one_pos
    · split
      · exact Nat.one_pos
      · omega

theorem Inv.write (h : p.Inv m live) {n : Node} (hn : n ∈ live) (a : Attrs) :
    Inv m { p with groups := update p.groups n.owner { p.groups n.owner with
      nodes := update (p.groups n.owner).nodes n.index a } } live := by
  obtain ⟨g, i⟩ := n
  obtain ⟨hpos, hlt⟩ := h.owner _ hn
  have hplace : ∀ g' l, g' ∈ p.lists l ↔
      g' = g ∧ ((p.groups g).isFull = true ↔ l = .full) ∨ g' ≠ g ∧ g' ∈ p.lists l := by
    intro g' l
    by_cases heq : g' = g
    · subst heq
      simp [h.place, hpos, hlt]
    · simp [heq]
  have hgroup := (h.group g hpos hlt).update hn a
  exact h.setGroup (s := { p.groups g with nodes := update (p.groups g).nodes i a }) hpos
    hlt rfl hgroup (fun _ _ => Iff.rfl) h.nodup h.linked hplace h.used

end NGInfo

namespace State

/-- Every operation on live nodes is carried out and keeps the invariant. -/
theorem inv_step {m : MemSize} {s : State} (h : s.pool.Inv m s.live) {op : Op}
    (hop : s.OwnsNode op) : ∃ s', s.step m op = some s' ∧ s'.pool.Inv m s'.live := by
  cases op with
  | allocate ok =>
    obtain ⟨n, p', halloc, hinv⟩ := h.allocateNode ok
    cases n with
    | none => exact ⟨⟨p', s.live⟩, by simp only [step, halloc, Option.map_some], hinv⟩
    | some n => exact ⟨⟨p', n :: s.live⟩, by simp only [step, halloc, Option.map_some], hinv⟩
  | release n => exact ⟨_, rfl, h.releaseNode hop⟩
  | write n a => exact ⟨_, rfl, h.write hop a⟩

end State

/-- Every run of allocations, of releases and of writes to live nodes goes through, and the pool is
good after it. -/
theorem good_along (m : MemSize) (preAlloc : Int) (ops : List Op)
    (hops : AlongRun (State.step m) State.OwnsNode ⟨NGInfo.init preAlloc, []⟩ ops) :
    ∃ s, runOps (State.step m) ⟨NGInfo.init preAlloc, []⟩ ops = some s ∧ s.Good := by
  have hkeep : ∀ (s : State) (op : Op), s.pool.Inv m s.live → s.OwnsNode op →
      ∃ s', s.step m op = some s' ∧ s'.pool.Inv m s'.live := fun _ _ hs hop =>
    State.inv_step hs hop
  obtain ⟨s, hrun, hinv⟩ := invariant_along (s := ⟨NGInfo.init preAlloc, []⟩) hkeep
    (NGInfo.inv_init m preAlloc) ops hops
  exact ⟨s, hrun, hinv.good⟩

/-- Two nodes of a new group, the first one released and given out again. -/
theorem good_along_two : ∃ s, runOps (State.step ⟨64 * 2 ^ 20, by decide⟩) ⟨NGInfo.init 1, []⟩
    [.allocate fun _ => true, .allocate fun _ => true, .release ⟨1, 0⟩, .allocate fun _ => true] =
      some s ∧ s.Good := by
  refine good_along ⟨64 * 2 ^ 20, by decide⟩ 1 _ ⟨trivial, ?_⟩
  rintro s ⟨⟩
  refine ⟨trivial, ?_⟩
  rintro s ⟨⟩
  refine ⟨List.mem_cons_of_mem _ List.mem_cons_self, ?_⟩
  rintro s ⟨⟩
  exact ⟨trivial, fun _ _ => trivial⟩

end ISearch.NodePool
