import Mathlib.Data.List.Nodup
import Mathlib.Data.List.Perm.Subperm
import Mathlib.Algebra.Order.Ring.Nat
import Mathlib.Algebra.Order.Ring.Int

/-!
# Node groups (`node_set.cc`, `node.h`)

A group hands out the slots that were released, last one first, and then those that were never
used. The released slots are chained through the attribute that holds the data handle of a live
node: `dele` reads that chain.
-/

namespace ISearch.NodePool

open List

/-- The attributes of a node. -/
structure Attrs where
  nextNode : Nat
  lruPrev : Nat
  lruNext : Nat
  vdHandle : Nat
  dirty : Bool

structure NodeSet where
  deleTop : Nat
  deleCount : Nat
  free : Nat
  nid : Nat
  nodes : Nat → Attrs

namespace NodeSet

def nodeId (s : NodeSet) (i : Nat) : Nat := (s.nid + i) % 2 ^ 32

def init (id : Nat) : NodeSet where
  deleTop := 0
  deleCount := 0
  free := 0
  nid := id
  nodes i := ⟨2 ^ 32 - 1, (id + i) % 2 ^ 32, (id + i) % 2 ^ 32, 0, false⟩

/-- `Node::Reset`: the handle stays. -/
def reset (s : NodeSet) (i : Nat) : NodeSet :=
  let a : Attrs := ⟨2 ^ 32 - 1, s.nodeId i, s.nodeId i, (s.nodes i).vdHandle, false⟩
  { s with nodes := Function.update s.nodes i a }

def isFull (s : NodeSet) : Bool := s.deleCount = 0 && 256 ≤ s.free

def allocateNode (s : NodeSet) : Option (Nat × NodeSet) :=
  if s.isFull then none
  else if 0 < s.deleCount then
    let i := s.deleTop
    let s := s.reset i
    some (i, { s with deleCount := s.deleCount - 1, deleTop := (s.nodes i).vdHandle % 2 ^ 8 })
  else
    let i := s.free
    let s := s.reset i
    some (i, { s with free := (s.free + 1) % 2 ^ 16 })

/-- `NODE_SET::release_node`. -/
def releaseNode (s : NodeSet) (i : Nat) : NodeSet :=
  { s with
    nodes := Function.update s.nodes i { s.nodes i with vdHandle := s.deleTop }
    deleTop := i % 2 ^ 16
    deleCount := (s.deleCount + 1) % 2 ^ 16 }

/-- `Node::Release`. -/
def release (s : NodeSet) (i : Nat) : NodeSet := (s.releaseNode i).reset i

/-! ## The released slots -/

/-- The first `n` slots along `next`. -/
def chain (next : Nat → Nat) : Nat → Nat → List Nat
  | 0, _ => []
  | n + 1, i => i :: chain next n (next i)

theorem chain_congr {next next' : Nat → Nat} {n i : Nat}
    (h : ∀ j ∈ chain next n i, next' j = next j) : chain next' n i = chain next n i := by
  induction n generalizing i with
  | zero => rfl
  | succ n ih =>
    rw [chain, chain, h i mem_cons_self]
    exact congrArg _ (ih fun j hj => h j (mem_cons_of_mem i hj))

@[simp] theorem length_chain (next : Nat → Nat) (n i : Nat) : (chain next n i).length = n := by
  induction n generalizing i with
  | zero => rfl
  | succ n ih => rw [chain, length_cons, ih]

/-- The slot below a released one. -/
def below (s : NodeSet) (i : Nat) : Nat := (s.nodes i).vdHandle % 2 ^ 8

/-- The released slots, from the top. -/
def dele (s : NodeSet) : List Nat := chain s.below s.deleCount s.deleTop

/-- The slots that the group gives out are those that are not live. -/
structure Inv (s : NodeSet) (live : Nat → Prop) : Prop where
  free_le : s.free ≤ 256
  nodup : s.dele.Nodup
  dele_lt : ∀ i ∈ s.dele, i < s.free
  live_iff : ∀ i, live i ↔ i < s.free ∧ i ∉ s.dele

variable {s : NodeSet} {live live' : Nat → Prop}

theorem inv_init (id : Nat) : (init id).Inv fun _ => False where
  free_le := Nat.zero_le _
  nodup := nodup_nil
  dele_lt := nofun
  live_iff i := ⟨nofun, fun h => absurd h.1 (Nat.not_lt_zero i)⟩

theorem Inv.congr (h : s.Inv live) (heq : ∀ i, live' i ↔ live i) : s.Inv live' :=
  ⟨h.free_le, h.nodup, h.dele_lt, fun i => (heq i).trans (h.live_iff i)⟩

theorem Inv.lt_of_live (h : s.Inv live) {i : Nat} (hi : live i) : i < 256 :=
  Nat.lt_of_lt_of_le ((h.live_iff i).mp hi).1 h.free_le

theorem below_reset (s : NodeSet) (i : Nat) : (s.reset i).below = s.below := by
  funext j
  by_cases hj : j = i
  · subst hj
    simp [below, reset]
  · simp [below, reset, hj]

theorem Inv.deleCount_le (h : s.Inv live) : s.deleCount ≤ 256 := by
  have hsub : s.dele ⊆ List.range 256 := fun i hi =>
    mem_range.mpr (Nat.lt_of_lt_of_le (h.dele_lt i hi) h.free_le)
  have hle := (subperm_of_subset h.nodup hsub).length_le
  rwa [dele, length_chain, length_range] at hle

/-- A slot is given out that was not live. -/
theorem Inv.allocateNode (h : s.Inv live) (hfull : s.isFull = false) :
    ∃ i s', s.allocateNode = some (i, s') ∧ ¬live i ∧ s'.nid = s.nid ∧
      s'.Inv fun j => j = i ∨ live j := by
  rw [NodeSet.allocateNode, hfull]
  by_cases hcount : 0 < s.deleCount
  · obtain ⟨n, hn⟩ : ∃ n, s.deleCount = n + 1 := ⟨s.deleCount - 1, by omega⟩
    have hdele : s.dele = s.deleTop :: chain s.below n (s.below s.deleTop) := by
      rw [dele, hn, chain]
    have htop : s.deleTop ∈ s.dele := by
      rw [hdele]
      exact mem_cons_self
    have hnodup := h.nodup
    rw [hdele, nodup_cons] at hnodup
    simp only [Bool.false_eq_true, if_false, if_pos hcount]
    refine ⟨s.deleTop, _, rfl, fun hl => ((h.live_iff _).mp hl).2 htop, rfl, ?_⟩
    have hdele' : NodeSet.dele { s.reset s.deleTop with
        deleCount := (s.reset s.deleTop).deleCount - 1
        deleTop := ((s.reset s.deleTop).nodes s.deleTop).vdHandle % 2 ^ 8 } =
        chain s.below n (s.below s.deleTop) := by
      rw [dele]
      change chain (s.reset s.deleTop).below (s.deleCount - 1)
        ((s.reset s.deleTop).below s.deleTop) = _
      rw [below_reset, hn, Nat.add_sub_cancel]
    refine ⟨h.free_le, by rw [hdele']; exact hnodup.2, ?_, ?_⟩
    · intro i hi
      rw [hdele'] at hi
      exact h.dele_lt i (by rw [hdele]; exact mem_cons_of_mem _ hi)
    · intro i
      rw [hdele', h.live_iff, hdele, mem_cons]
      have hlt := h.dele_lt _ htop
      constructor
      · rintro (rfl | ⟨hi, hnot⟩)
        · exact ⟨hlt, hnodup.1⟩
        · exact ⟨hi, fun hmem => hnot (Or.inr hmem)⟩
      · rintro ⟨hi, hnot⟩
        by_cases heq : i = s.deleTop
        · exact Or.inl heq
        · exact Or.inr ⟨hi, fun hmem => hmem.elim heq hnot⟩
  · have hzero : s.deleCount = 0 := by omega
    have hfree : s.free < 256 := by
      simpa [isFull, hzero] using hfull
    simp only [Bool.false_eq_true, if_false, if_neg hcount]
    refine ⟨s.free, _, rfl, fun hl => Nat.lt_irrefl _ ((h.live_iff _).mp hl).1, rfl, ?_⟩
    have hnext : (s.free + 1) % 2 ^ 16 = s.free + 1 := Nat.mod_eq_of_lt (by omega)
    have hnil : s.dele = [] := by rw [dele, hzero, chain]
    have hdele' :
      NodeSet.dele { s.reset s.free with free := ((s.reset s.free).free + 1) % 2 ^ 16 } =
        [] := by
      rw [dele]
      change chain (s.reset s.free).below s.deleCount s.deleTop = []
      rw [hzero, chain]
    refine ⟨?_, by rw [hdele']; exact nodup_nil, by rw [hdele']; exact nofun, ?_⟩
    · change (s.free + 1) % 2 ^ 16 ≤ 256
      omega
    · intro i
      rw [hdele', h.live_iff, hnil]
      change _ ↔ i < (s.free + 1) % 2 ^ 16 ∧ _
      simp only [hnext, not_mem_nil, not_false_eq_true, and_true]
      omega

/-- The slot of a live node comes to the top of the released ones. -/
theorem Inv.release (h : s.Inv live) {i : Nat} (hi : live i) :
    (s.release i).dele = i :: s.dele ∧ (s.release i).nid = s.nid ∧ (s.release i).isFull = false ∧
      (s.release i).Inv fun j => j ≠ i ∧ live j := by
  obtain ⟨hlt, hnot⟩ := (h.live_iff i).mp hi
  have hlt' := h.lt_of_live hi
  have hle := h.deleCount_le
  have htop : i % 2 ^ 16 = i := Nat.mod_eq_of_lt (by omega)
  have hcount : (s.deleCount + 1) % 2 ^ 16 = s.deleCount + 1 := Nat.mod_eq_of_lt (by omega)
  have hbelow : ∀ j, (s.releaseNode i).below j = if j = i then s.deleTop % 2 ^ 8
    else s.below j := by
    intro j
    by_cases hj : j = i
    · subst hj
      simp [below, releaseNode]
    · simp [below, releaseNode, hj]
  have hdele : (s.release i).dele = i :: s.dele := by
    rw [NodeSet.release, dele, below_reset]
    change chain (s.releaseNode i).below ((s.deleCount + 1) % 2 ^ 16) (i % 2 ^ 16) = _
    rw [hcount, htop, chain, hbelow, if_pos rfl]
    congr 1
    rw [dele]
    have hchain : chain (s.releaseNode i).below s.deleCount s.deleTop =
        chain s.below s.deleCount s.deleTop := by
      apply chain_congr
      intro j hj
      rw [hbelow, if_neg]
      rintro rfl
      exact hnot hj
    rw [← hchain]
    -- the top of a chain that is not empty is a slot
    cases hn : s.deleCount with
    | zero => rfl
    | succ n =>
      have hmem : s.deleTop ∈ s.dele := by
        rw [dele, hn, chain]
        exact mem_cons_self
      have htop' := h.dele_lt _ hmem
      have hfree := h.free_le
      rw [Nat.mod_eq_of_lt (by omega)]
  refine ⟨hdele, rfl, ?_, h.free_le, ?_, ?_, ?_⟩
  · change (decide ((s.deleCount + 1) % 2 ^ 16 = 0) && _) = false
    rw [hcount]
    simp
  · rw [hdele, nodup_cons]
    exact ⟨hnot, h.nodup⟩
  · intro j hj
    rw [hdele, mem_cons] at hj
    rcases hj with rfl | hj
    · exact hlt
    · exact h.dele_lt j hj
  · intro j
    rw [hdele, h.live_iff, mem_cons]
    change _ ↔ j < s.free ∧ _
    tauto

/-- The owner of a live node may write its attributes. -/
theorem Inv.update (h : s.Inv live) {i : Nat} (hi : live i) (a : Attrs) :
    Inv { s with nodes := Function.update s.nodes i a } live := by
  have hnot := ((h.live_iff i).mp hi).2
  have hdele : NodeSet.dele { s with nodes := Function.update s.nodes i a } = s.dele := by
    apply chain_congr
    intro j hj
    have hne : j ≠ i := by
      rintro rfl
      exact hnot hj
    simp [below, hne]
  exact ⟨h.free_le, by rw [hdele]; exact h.nodup, by rw [hdele]; exact h.dele_lt,
    by rw [hdele]; exact h.live_iff⟩

end NodeSet

end ISearch.NodePool
