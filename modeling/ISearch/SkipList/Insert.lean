import Mathlib.Data.List.Chain
import Mathlib.Data.List.Perm.Subperm
import Mathlib.Data.List.Nodup
import Mathlib.Algebra.Order.Ring.Nat

/-!
# The skip list

A node has a forward pointer for each of 16 levels and one backward pointer. The header stands in
front of every level and the footer ends it. An insertion may raise the level of the list by one
before its node is allocated, whether or not the allocation succeeds.
-/

namespace ISearch.Skip

open Function List

abbrev Handle := Nat

def null : Handle := 0

def maxLevel : Nat := 16

structure Node (V : Type) where
  key : Int
  value : V
  nodeLevel : Nat
  backward : Handle
  forward : Nat → Handle

/-- The list and the memory of its nodes; handles from `next` on are free. -/
structure SkipList (V : Type) where
  node : Handle → Node V
  next : Handle
  level : Nat
  header : Handle
  footer : Handle
  nodeCount : UInt32

variable {V : Type}

/-- The list of `InitList`, with the footer at 1 and the header at 2. -/
def initList (empty : V) : SkipList V where
  node h := if h = 2 then ⟨0, empty, maxLevel, null, fun i => if i < maxLevel then 1 else null⟩
    else ⟨0, empty, 1, 2, fun _ => null⟩
  next := 3
  level := 0
  header := 2
  footer := 1
  nodeCount := 0

namespace SkipList

variable (s : SkipList V)

def setForward (h : Handle) (i : Nat) (target : Handle) : SkipList V :=
  { s with
    node := Function.update s.node h
      { s.node h with forward := Function.update (s.node h).forward i target } }

def setBackward (h target : Handle) : SkipList V :=
  { s with node := Function.update s.node h { s.node h with backward := target } }

/-- The comparison of the search, with its tolerance of `0.0001`. -/
def passes (other key : Int) : Bool :=
  other < key || (10000 * (other - key) < 1 && 10000 * (other - key) > -1)

/-- The `while` loop of level `i`; `none` if a null pointer is followed or the fuel is used up. -/
def walk (key : Int) (i : Nat) : Nat → Handle → Option Handle
  | 0, _ => none
  | fuel + 1, node =>
    let f := (s.node node).forward i
    if f = s.footer then some node
    else if f = null then none
    else if passes (s.node f).key key then walk key i fuel f
    else some node

/-- The loop that fills `update` below level `i`. -/
def search (key : Int) :
    Nat → Handle → (Nat → Option Handle) → Option (Nat → Option Handle)
  | 0, _, update => some update
  | i + 1, node, update => do
    let node ← s.walk key i s.next node
    search key i node (Function.update update i (some node))

/-- The loop that links a new node on the levels below `i`. -/
def link (update : Nat → Option Handle) (new : Handle) : Nat → SkipList V → Option (SkipList V)
  | 0, s => some s
  | i + 1, s => do
    let node ← update i
    let s := s.setForward new i ((s.node node).forward i)
    link update new i (s.setForward node i new)

/-- `CreateNode`, at the next handle. -/
def createNode (nodeLevel : Nat) (key : Int) (value : V) : SkipList V :=
  { s with
    next := s.next + 1
    node := Function.update s.node s.next ⟨key, value, nodeLevel, null, fun _ => null⟩ }

/-- `InsertNode` with the level `random`: what it returns, and the list. -/
def insertNode (key : Int) (value : V) (random : Fin maxLevel) (alloc : Bool) :
    Option (Bool × SkipList V) := do
  let update ← s.search key s.level s.header fun _ => none
  -- `getRandomLevel` counts from 1
  let raise := s.level < random + 1
  let nodeLevel := if raise then s.level + 1 else random + 1
  let update := if raise then Function.update update s.level (some s.header) else update
  let s := { s with level := if raise then s.level + 1 else s.level }
  if alloc = false then return (false, s)
  let new := s.next
  let s := s.createNode nodeLevel key value
  let first ← update 0
  let s := s.setBackward ((s.node first).forward 0) new
  let s := s.setBackward new first
  let s ← link update new nodeLevel s
  return (true, { s with nodeCount := s.nodeCount + 1 })

end SkipList

/-- A call of `InsertNode`. -/
structure Op (V : Type) where
  key : Int
  value : V
  random : Fin maxLevel
  alloc : Bool

/-- The nodes of the levels, without the header and the footer. -/
structure Levels (s : SkipList V) (lists : Nat → List Handle) : Prop where
  nodup : (s.header :: (lists 0 ++ [s.footer])).Nodup
  live : ∀ h ∈ s.header :: (lists 0 ++ [s.footer]), null < h ∧ h < s.next
  forward : ∀ i < maxLevel, (s.header :: (lists i ++ [s.footer])).IsChain fun a b =>
    (s.node a).forward i = b
  backward : (s.header :: (lists 0 ++ [s.footer])).IsChain fun a b => (s.node b).backward = a
  sublist : ∀ i, (lists (i + 1)).Sublist (lists i)
  sorted : (lists 0).Pairwise fun a b => (s.node a).key ≤ (s.node b).key
  level_le : s.level ≤ maxLevel
  above : ∀ i, s.level ≤ i → lists i = []

/-- A state with the nodes inserted: they are on level 0, equal keys in the order of insertion.
`agree` is what the counter says of the number of nodes. -/
def Holds (agree : UInt32 → Nat → Prop) (s : SkipList V) (inserted : List (Int × V)) : Prop :=
  ∃ lists, Levels s lists ∧ agree s.nodeCount (lists 0).length ∧
    ∀ k, ((lists 0).map fun h => ((s.node h).key, (s.node h).value)).filter (·.1 = k) =
      inserted.filter (·.1 = k)

/-- Every call of a run returns, a failed one leaves all nodes as they are, and every state holds.
-/
def RunHolds (agree : UInt32 → Nat → Prop) (s : SkipList V) (inserted : List (Int × V)) :
    List (Op V) → Prop
  | [] => Holds agree s inserted
  | op :: ops => Holds agree s inserted ∧
    ∃ s', s.insertNode op.key op.value op.random op.alloc = some (op.alloc, s') ∧
      s'.header = s.header ∧ s'.footer = s.footer ∧
      (op.alloc = false → s'.node = s.node ∧ s'.nodeCount = s.nodeCount) ∧
      RunHolds agree s' (if op.alloc then inserted ++ [(op.key, op.value)] else inserted) ops

section Chain

variable {α : Type} {R R' : α → α → Prop} {xs ys : List α} {a b x : α}

/-- A new element between two others: the links between the old ones stay, except this one. -/
theorem isChain_insert (h : (xs ++ a :: b :: ys).IsChain R) (hnodup : (xs ++ a :: b :: ys).Nodup)
    (hx : x ∉ xs ++ a :: b :: ys)
    (hold : ∀ c d, c ≠ x → d ≠ x → (c ≠ a ∨ d ≠ b) → R c d → R' c d)
    (hleft : R' a x) (hright : R' x b) : (xs ++ a :: x :: b :: ys).IsChain R' := by
  obtain ⟨h₁, -, h₂⟩ := isChain_append_cons_cons.mp h
  have hb : b ∉ xs ++ [a] := by
    intro hmem
    rw [append_cons, nodup_append] at hnodup
    exact hnodup.2.2 b hmem b mem_cons_self rfl
  have ha : a ∉ b :: ys := (nodup_cons.mp hnodup.of_append_right).1
  rw [isChain_append_cons_cons, isChain_cons_cons]
  refine ⟨h₁.imp_of_mem_imp fun c d hc hd => hold c d ?_ ?_ (.inr ?_), hleft, hright,
    h₂.imp_of_mem_imp fun c d hc hd => hold c d ?_ ?_ (.inl ?_)⟩
  · rintro rfl
    exact hx (append_cons xs a (b :: ys) ▸ mem_append_left _ hc)
  · rintro rfl
    exact hx (append_cons xs a (b :: ys) ▸ mem_append_left _ hd)
  · rintro rfl
    exact hb hd
  · rintro rfl
    exact hx (append_cons xs a (b :: ys) ▸ mem_append_right _ hc)
  · rintro rfl
    exact hx (append_cons xs a (b :: ys) ▸ mem_append_right _ hd)
  · rintro rfl
    exact ha hc

end Chain

/-! ## Searching -/

namespace SkipList

variable {s : SkipList V} {lists : Nat → List Handle} {key : Int} {i : Nat}

theorem passes_iff {other : Int} : passes other key = true ↔ other ≤ key := by
  simp only [passes, Bool.or_eq_true, Bool.and_eq_true, decide_eq_true_eq]
  omega

/-- The walk ends at the last node that is passed. -/
theorem walk_eq {node : Handle} {ys zs : List Handle} {fuel : Nat}
    (hchain : (node :: (ys ++ (zs ++ [s.footer]))).IsChain fun a b => (s.node a).forward i = b)
    (hys : ∀ y ∈ ys, y ≠ s.footer ∧ y ≠ null ∧ (s.node y).key ≤ key)
    (hzs : ∀ z ∈ zs, z ≠ s.footer ∧ z ≠ null ∧ key < (s.node z).key) (hfuel : ys.length < fuel) :
    s.walk key i fuel node = some ((node :: ys).getLast (cons_ne_nil _ _)) := by
  induction ys generalizing node fuel with
  | nil =>
    obtain _ | fuel := fuel
    · exact absurd hfuel (Nat.not_lt_zero _)
    · cases zs with
      | nil =>
        have hf := (isChain_cons_cons.mp hchain).1
        rw [walk]
        simp only [hf, if_true, getLast_singleton]
      | cons z zs =>
        have hf : (s.node node).forward i = z := (isChain_cons_cons.mp hchain).1
        obtain ⟨hfooter, hnull, hkey⟩ := hzs z mem_cons_self
        have hpass : ¬passes (s.node z).key key = true := fun h =>
          absurd (passes_iff.mp h) (Int.not_le.mpr hkey)
        rw [walk]
        simp only [hf, if_neg hfooter, if_neg hnull, if_neg hpass, getLast_singleton]
  | cons y ys ih =>
    obtain _ | fuel := fuel
    · exact absurd hfuel (Nat.not_lt_zero _)
    · obtain ⟨hf, hrest⟩ := isChain_cons_cons.mp hchain
      obtain ⟨hfooter, hnull, hkey⟩ := hys y mem_cons_self
      rw [walk]
      simp only [hf, if_neg hfooter, if_neg hnull, if_pos (passes_iff.mpr hkey)]
      rw [ih hrest (fun z hz => hys z (mem_cons_of_mem _ hz)) (Nat.lt_of_succ_lt_succ hfuel),
        getLast_cons_cons]

end SkipList

variable {s : SkipList V} {lists : Nat → List Handle}

/-- The nodes of a level that an insertion of the key passes, and those it does not. -/
def passed (s : SkipList V) (lists : Nat → List Handle) (key : Int) (i : Nat) : List Handle :=
  (lists i).filter fun h => (s.node h).key ≤ key

def kept (s : SkipList V) (lists : Nat → List Handle) (key : Int) (i : Nat) : List Handle :=
  (lists i).filter fun h => key < (s.node h).key

/-- The node that an insertion of the key goes behind. -/
def pred (s : SkipList V) (lists : Nat → List Handle) (key : Int) (i : Nat) : Handle :=
  (s.header :: passed s lists key i).getLast (cons_ne_nil _ _)

section Levels

variable (hl : Levels s lists) (key : Int)

theorem Levels.sublist_zero (hl : Levels s lists) (i : Nat) : (lists i).Sublist (lists 0) := by
  induction i with
  | zero => exact .refl _
  | succ i ih => exact (hl.sublist i).trans ih

include hl

theorem Levels.passed_append_kept (i : Nat) :
    passed s lists key i ++ kept s lists key i = lists i := by
  have hsorted := hl.sorted.sublist (hl.sublist_zero i)
  rw [passed, kept]
  generalize lists i = l at hsorted
  induction l with
  | nil => rfl
  | cons h l ih =>
    obtain ⟨hhead, hsorted⟩ := pairwise_cons.mp hsorted
    by_cases hle : (s.node h).key ≤ key
    · rw [filter_cons_of_pos (by simpa using hle),
        filter_cons_of_neg (by simpa using hle), cons_append, ih hsorted]
    · have hnone : (l.filter fun h => (s.node h).key ≤ key) = [] := by
        rw [filter_eq_nil_iff]
        intro g hg
        have := hhead g hg
        simp only [decide_eq_true_eq]
        omega
      have hall : (l.filter fun h => key < (s.node h).key) = l := by
        rw [filter_eq_self]
        intro g hg
        have := hhead g hg
        simp only [decide_eq_true_eq]
        omega
      rw [filter_cons_of_neg (by simpa using hle), hnone,
        filter_cons_of_pos (by simpa using hle), hall]
      rfl

theorem Levels.mem_ne {i : Nat} {h : Handle} (hmem : h ∈ lists i) :
    h ≠ s.header ∧ h ≠ s.footer ∧ h ≠ null := by
  have hzero := (hl.sublist_zero i).subset hmem
  have hnodup := hl.nodup
  rw [nodup_cons, nodup_append] at hnodup
  refine ⟨fun heq => hnodup.1 ?_, fun heq => ?_, ?_⟩
  · rw [← heq]
    exact mem_append_left _ hzero
  · exact hnodup.2.2.2 h hzero s.footer mem_cons_self heq
  · exact (hl.live h (mem_cons_of_mem _ (mem_append_left _ hzero))).1.ne'

theorem Levels.length_lt_next (i : Nat) : (lists i).length < s.next := by
  have hlive : ∀ h ∈ lists 0, null < h ∧ h < s.next := fun h hh =>
    hl.live h (mem_cons_of_mem _ (mem_append_left _ hh))
  have hnodup : (null :: lists 0).Nodup := by
    refine nodup_cons.mpr ⟨fun h => lt_irrefl _ (hlive _ h).1, ?_⟩
    exact (nodup_append.mp (nodup_cons.mp hl.nodup).2).1
  have hsub : (null :: lists 0) ⊆ List.range s.next := by
    intro h hh
    rw [mem_range]
    rcases mem_cons.mp hh with rfl | hh
    · obtain ⟨hpos, hlt⟩ := hl.live s.header mem_cons_self
      exact hpos.trans hlt
    · exact (hlive h hh).2
  have hle := (subperm_of_subset hnodup hsub).length_le
  rw [length_cons, length_range] at hle
  exact ((hl.sublist_zero i).length_le).trans_lt hle

/-- From any node that is passed, the walk of a level ends at its last one. -/
theorem Levels.walk_eq {i : Nat} (hi : i < maxLevel) {node : Handle}
    (hnode : node ∈ s.header :: passed s lists key i) :
    s.walk key i s.next node = some (pred s lists key i) := by
  obtain ⟨xs, ys, hsplit⟩ := append_of_mem hnode
  have hchain := hl.forward i hi
  have hlist := hl.passed_append_kept key i
  rw [← hlist, append_assoc, ← cons_append, hsplit, append_assoc] at hchain
  have hlen : (s.header :: passed s lists key i).length ≤ s.next := by
    have := hl.length_lt_next i
    rw [← hlist, length_append] at this
    rw [length_cons]
    omega
  rw [hsplit, length_append, length_cons] at hlen
  have hys : ∀ y ∈ ys, y ∈ passed s lists key i := by
    intro y hy
    cases xs with
    | nil =>
      obtain ⟨-, rfl⟩ := List.cons.inj hsplit
      exact hy
    | cons x xs =>
      rw [(List.cons.inj hsplit).2]
      exact mem_append_right _ (mem_cons_of_mem _ hy)
  have hpass : ∀ y ∈ ys, y ≠ s.footer ∧ y ≠ null ∧ (s.node y).key ≤ key := by
    intro y hy
    obtain ⟨hmem, hkey⟩ := mem_filter.mp (hys y hy)
    exact ⟨(hl.mem_ne hmem).2.1, (hl.mem_ne hmem).2.2, by simpa using hkey⟩
  have hkeep : ∀ z ∈ kept s lists key i, z ≠ s.footer ∧ z ≠ null ∧ key < (s.node z).key := by
    intro z hz
    obtain ⟨hmem, hkey⟩ := mem_filter.mp hz
    exact ⟨(hl.mem_ne hmem).2.1, (hl.mem_ne hmem).2.2, by simpa using hkey⟩
  have hlt : ys.length < s.next := by omega
  rw [SkipList.walk_eq hchain.right_of_append hpass hkeep hlt, pred]
  simp only [hsplit]
  rw [getLast_append_of_ne_nil]

theorem Levels.pred_mem {i j : Nat} (hle : j ≤ i) :
    pred s lists key i ∈ s.header :: passed s lists key j := by
  have hsub : (lists i).Sublist (lists j) := by
    induction i, hle using Nat.le_induction with
    | base => exact .refl _
    | succ i _ ih => exact (hl.sublist i).trans ih
  exact ((hsub.filter _).cons_cons _).subset (getLast_mem _)

/-- The search fills the array with the nodes that the key goes behind. -/
theorem Levels.search_eq {n : Nat} (hn : n ≤ maxLevel) {node : Handle}
    (hnode : ∀ i < n, node ∈ s.header :: passed s lists key i) (update : Nat → Option Handle) :
    s.search key n node update =
      some fun i => if i < n then some (pred s lists key i) else update i := by
  induction n generalizing node update with
  | zero => rfl
  | succ n ih =>
    rw [SkipList.search, hl.walk_eq key hn (hnode n n.lt_succ_self)]
    change s.search key n (pred s lists key n)
      (Function.update update n (some (pred s lists key n))) = _
    rw [ih (Nat.le_of_succ_le hn) fun i hi => hl.pred_mem key hi.le]
    congr 1
    funext i
    obtain hlt | rfl | hgt := lt_trichotomy i n
    · rw [if_pos hlt, if_pos (Nat.lt_succ_of_lt hlt)]
    · rw [if_neg (lt_irrefl i), update_self, if_pos i.lt_succ_self]
    · rw [if_neg (by omega), update_of_ne hgt.ne', if_neg (by omega)]

end Levels

/-- The node of a handle when a new one is linked on the levels below `n`. -/
def linked (s : SkipList V) (pred : Nat → Handle) (new : Handle) (n : Nat) (h : Handle) : Node V :=
  { s.node h with
    forward := fun i =>
      if i < n then
        if h = new then (s.node (pred i)).forward i
        else if h = pred i then new else (s.node h).forward i
      else (s.node h).forward i }

theorem SkipList.setForward_node (h g : Handle) (i : Nat) (target : Handle) :
    (s.setForward h i target).node g = { s.node g with
      forward := fun j => if g = h ∧ j = i then target else (s.node g).forward j } := by
  rw [setForward]
  by_cases hg : g = h
  · subst hg
    simp only [update_self, true_and]
    congr 1
    funext j
    by_cases hj : j = i
    · rw [if_pos hj, hj, update_self]
    · rw [if_neg hj, update_of_ne hj]
  · simp only [update_of_ne hg, hg, false_and, if_false]

theorem SkipList.link_eq {update : Nat → Option Handle} {pred : Nat → Handle} {new : Handle}
    {n : Nat} (hupdate : ∀ i < n, update i = some (pred i)) (hne : ∀ i < n, pred i ≠ new) :
    SkipList.link update new n s = some { s with node := linked s pred new n } := by
  induction n generalizing s with
  | zero => rfl
  | succ n ih =>
    rw [SkipList.link, hupdate n n.lt_succ_self]
    change SkipList.link update new n ((s.setForward new n ((s.node (pred n)).forward n)).setForward
      (pred n) n new) = _
    rw [ih (fun i hi => hupdate i (Nat.lt_succ_of_lt hi)) fun i hi => hne i (Nat.lt_succ_of_lt hi)]
    refine congrArg (fun node => some { s with node }) (funext fun h => ?_)
    simp only [linked, setForward_node]
    congr 1
    funext i
    have hnew := hne n n.lt_succ_self
    obtain hlt | rfl | hgt := lt_trichotomy i n
    · simp only [hlt, hlt.ne, and_false, if_false, if_true, Nat.lt_succ_of_lt hlt]
    · simp only [lt_irrefl, if_false, and_true, Nat.lt_succ_self, if_true]
      by_cases hh : h = new
      · subst hh
        rw [if_neg (Ne.symm hnew), if_pos rfl, if_pos rfl]
      · rw [if_neg hh, if_neg hh]
    · simp only [Nat.not_lt.mpr hgt.le, hgt.ne', and_false, if_false,
        Nat.not_lt.mpr (Nat.succ_le_of_lt hgt)]

/-! ## Insertion -/

/-- The levels with a new node on those below `n`. -/
def inserted (s : SkipList V) (lists : Nat → List Handle) (key : Int) (n i : Nat) : List Handle :=
  if i < n then passed s lists key i ++ s.next :: kept s lists key i else lists i

/-- The node that an insertion of the key goes in front of. -/
def succ (s : SkipList V) (lists : Nat → List Handle) (key : Int) (i : Nat) : Handle :=
  (kept s lists key i ++ [s.footer]).head (by simp)

/-- The node of a handle after an insertion on the levels below `n`. -/
def nodeAfter (s : SkipList V) (lists : Nat → List Handle) (key : Int) (value : V) (n : Nat)
    (h : Handle) : Node V :=
  if h = s.next then
    ⟨key, value, n, pred s lists key 0, fun i =>
      if i < n then (s.node (pred s lists key i)).forward i else null⟩
  else { s.node h with
    backward := if h = succ s lists key 0 then s.next else (s.node h).backward
    forward := fun i =>
      if i < n ∧ h = pred s lists key i then s.next else (s.node h).forward i }

/-- The level of a new node. -/
def newLevel (s : SkipList V) (random : Fin maxLevel) : Nat :=
  if s.level < random + 1 then s.level + 1 else random + 1

theorem SkipList.setBackward_node (h g target : Handle) :
    (s.setBackward h target).node g = { s.node g with
      backward := if g = h then target else (s.node g).backward } := by
  rw [setBackward]
  by_cases hg : g = h
  · subst hg
    simp only [update_self, if_true]
  · simp only [update_of_ne hg, if_neg hg]

theorem pred_of_nil {key : Int} {i : Nat} (h : lists i = []) : pred s lists key i = s.header := by
  simp [pred, passed, h]

theorem Levels.live_of_mem (hl : Levels s lists) {i : Nat} {h : Handle}
    (hmem : h ∈ s.header :: lists i) : null < h ∧ h < s.next := by
  rcases mem_cons.mp hmem with rfl | hmem
  · exact hl.live _ mem_cons_self
  · exact hl.live h (mem_cons_of_mem _
      (mem_append_left _ ((hl.sublist_zero i).subset hmem)))

theorem Levels.pred_lt_next (hl : Levels s lists) (key : Int) (i : Nat) :
    pred s lists key i < s.next := by
  have hmem := hl.pred_mem key (le_refl i)
  exact (hl.live_of_mem (cons_subset_cons _ (filter_subset_self _) hmem)).2

theorem Levels.succ_lt_next (hl : Levels s lists) (key : Int) (i : Nat) :
    succ s lists key i < s.next := by
  have hmem : succ s lists key i ∈ kept s lists key i ++ [s.footer] := head_mem _
  refine (hl.live _ (mem_cons_of_mem _ (mem_append.mpr ?_))).2
  exact (mem_append.mp hmem).imp_left fun h =>
    (hl.sublist_zero i).subset (mem_filter.mp h).1

/-- The place of the key on a level. -/
theorem Levels.split (hl : Levels s lists) (key : Int) (i : Nat) : ∃ xs ys,
    s.header :: (lists i ++ [s.footer]) =
      xs ++ pred s lists key i :: succ s lists key i :: ys ∧
    s.header :: (passed s lists key i ++ s.next :: kept s lists key i ++ [s.footer]) =
      xs ++ pred s lists key i :: s.next :: succ s lists key i :: ys := by
  have hfront : s.header :: passed s lists key i =
      (s.header :: passed s lists key i).dropLast ++ [pred s lists key i] :=
    (dropLast_append_getLast _).symm
  have hback : kept s lists key i ++ [s.footer] =
      succ s lists key i :: (kept s lists key i ++ [s.footer]).tail :=
    (cons_head_tail _).symm
  refine ⟨(s.header :: passed s lists key i).dropLast, (kept s lists key i ++ [s.footer]).tail,
    ?_, ?_⟩
  · rw [← hback, append_cons (s.header :: passed s lists key i).dropLast, ← hfront,
      cons_append, ← append_assoc, hl.passed_append_kept key i]
  · rw [← hback, append_cons (s.header :: passed s lists key i).dropLast, ← hfront,
      append_assoc]
    rfl

theorem Levels.forward_pred (hl : Levels s lists) (key : Int) {i : Nat} (hi : i < maxLevel) :
    (s.node (pred s lists key i)).forward i = succ s lists key i := by
  obtain ⟨xs, ys, hsplit, -⟩ := hl.split key i
  have hchain := hl.forward i hi
  rw [hsplit] at hchain
  exact (isChain_append_cons_cons.mp hchain).2.1

theorem Levels.backward_succ (hl : Levels s lists) (key : Int) :
    (s.node (succ s lists key 0)).backward = pred s lists key 0 := by
  obtain ⟨xs, ys, hsplit, -⟩ := hl.split key 0
  have hchain := hl.backward
  rw [hsplit] at hchain
  exact (isChain_append_cons_cons.mp hchain).2.1

theorem Levels.insertNode_eq (hl : Levels s lists) (key : Int) (value : V) (random : Fin maxLevel)
    (alloc : Bool) : s.insertNode key value random alloc = some (alloc,
      let level := if s.level < random + 1 then s.level + 1 else s.level
      if alloc then { s with
        node := nodeAfter s lists key value (newLevel s random)
        next := s.next + 1
        level
        nodeCount := s.nodeCount + 1 }
      else { s with level }) := by
  have hsearch := hl.search_eq key hl.level_le (fun _ _ => mem_cons_self) fun _ => none
  set update := (fun i => if i < s.level then some (pred s lists key i) else none :
    Nat → Option Handle) with hupdate
  set update' := (if s.level < random + 1 then Function.update update s.level (some s.header)
    else update) with hupdate'
  have hpred : ∀ i < newLevel s random, update' i = some (pred s lists key i) := by
    intro i hi
    rw [newLevel] at hi
    rw [hupdate', hupdate]
    split_ifs at hi ⊢ with hraise
    · by_cases heq : i = s.level
      · subst heq
        rw [update_self, pred_of_nil (hl.above s.level le_rfl)]
      · rw [update_of_ne heq]
        exact if_pos (by omega)
    · exact if_pos (by omega)
  rw [SkipList.insertNode, hsearch]
  cases alloc with
  | false => rfl
  | true =>
    have hpos : 0 < newLevel s random := by
      rw [newLevel]
      split <;> omega
    set level := (if s.level < random + 1 then s.level + 1 else s.level) with hlevel
    set s₁ := SkipList.createNode { s with level } (newLevel s random) key value with hs₁
    set s₂ := (s₁.setBackward (succ s lists key 0) s.next).setBackward s.next (pred s lists key 0)
      with hs₂
    have hlt := hl.pred_lt_next key
    have hnode : ∀ h, s₁.node h = if h = s.next then
        ⟨key, value, newLevel s random, null, fun _ => null⟩ else s.node h := fun h =>
      update_apply _ _ _ _
    have hfirst : (s₁.node (pred s lists key 0)).forward 0 = succ s lists key 0 := by
      rw [hnode, if_neg (hlt 0).ne, hl.forward_pred key (by decide)]
    have hsucc := (hl.succ_lt_next key 0).ne
    have hlink := SkipList.link_eq (s := s₂) hpred fun i _ => (hlt i).ne
    change ((update' 0).bind fun first =>
      (SkipList.link update' s.next (newLevel s random)
        ((s₁.setBackward ((s₁.node first).forward 0) s.next).setBackward s.next first)).bind fun s =>
          some (true, { s with nodeCount := s.nodeCount + 1 })) = _
    rw [hpred 0 hpos, Option.bind_some, hfirst, ← hs₂, hlink, Option.bind_some]
    have hafter : linked s₂ (pred s lists key) s.next (newLevel s random) =
        nodeAfter s lists key value (newLevel s random) := by
      have hnode₂ : ∀ h, s₂.node h = { s₁.node h with
          backward := if h = s.next then pred s lists key 0
            else if h = succ s lists key 0 then s.next else (s₁.node h).backward } := by
        intro h
        rw [hs₂, SkipList.setBackward_node, SkipList.setBackward_node]
      funext h
      rw [nodeAfter, linked, hnode₂]
      by_cases hnew : h = s.next
      · subst hnew
        simp only [hnode₂, hnode, if_true, (hlt _).ne, if_false]
      · simp only [hnode₂, hnode, hnew, if_false, ite_and]
    rw [hafter]
    rfl

/-- A failed insertion may add an empty level. -/
theorem Levels.raise (hl : Levels s lists) (random : Fin maxLevel) :
    Levels { s with level := if s.level < random + 1 then s.level + 1 else s.level } lists := by
  have hrandom := random.isLt
  have hle := hl.level_le
  exact { hl with
    level_le := by
      dsimp only
      split <;> omega
    above := fun i hi => hl.above i (by
      dsimp only at hi
      split at hi <;> omega) }

theorem newLevel_le (random : Fin maxLevel) :
    newLevel s random ≤ if s.level < random + 1 then s.level + 1 else s.level := by
  rw [newLevel]
  split <;> omega

theorem newLevel_pos (random : Fin maxLevel) : 0 < newLevel s random := by
  rw [newLevel]
  split <;> omega

theorem nodeAfter_of_ne {key : Int} {value : V} {n : Nat} {h : Handle} (hh : h ≠ s.next) :
    nodeAfter s lists key value n h = { s.node h with
      backward := if h = succ s lists key 0 then s.next else (s.node h).backward
      forward := fun i =>
        if i < n ∧ h = pred s lists key i then s.next else (s.node h).forward i } :=
  if_neg hh

theorem nodeAfter_self {key : Int} {value : V} {n : Nat} :
    nodeAfter s lists key value n s.next = ⟨key, value, n, pred s lists key 0, fun i =>
      if i < n then (s.node (pred s lists key i)).forward i else null⟩ := if_pos rfl

theorem Levels.insert (hl : Levels s lists) (key : Int) (value : V) (random : Fin maxLevel) :
    Levels { s with
      node := nodeAfter s lists key value (newLevel s random)
      next := s.next + 1
      level := if s.level < random + 1 then s.level + 1 else s.level
      nodeCount := s.nodeCount + 1 } (inserted s lists key (newLevel s random)) := by
  set n := newLevel s random with hn
  have hzero : inserted s lists key n 0 = passed s lists key 0 ++ s.next :: kept s lists key 0 :=
    if_pos (newLevel_pos random)
  have hnew : ∀ i, s.next ∉ s.header :: (lists i ++ [s.footer]) := by
    intro i hmem
    refine lt_irrefl s.next (hl.live _ ?_).2
    exact ((hl.sublist_zero i).append_right _).cons_cons _ |>.subset hmem
  have hlive : ∀ i, ∀ h ∈ s.header :: (lists i ++ [s.footer]), h < s.next := fun i h hmem =>
    (hl.live h (((hl.sublist_zero i).append_right _).cons_cons _ |>.subset hmem)).2
  have hnodup : ∀ i, (s.header :: (lists i ++ [s.footer])).Nodup := fun i =>
    hl.nodup.sublist (((hl.sublist_zero i).append_right _).cons_cons _)
  have hperm : (s.header :: (inserted s lists key n 0 ++ [s.footer])).Perm
      (s.next :: s.header :: (lists 0 ++ [s.footer])) := by
    obtain ⟨xs, ys, hsplit, hsplit'⟩ := hl.split key 0
    have hmiddle : (xs ++ [pred s lists key 0] ++ s.next :: succ s lists key 0 :: ys).Perm
        (s.next :: (xs ++ [pred s lists key 0] ++ succ s lists key 0 :: ys)) := perm_middle
    rw [hzero, hsplit', hsplit, append_cons xs, append_cons xs _ (_ :: ys)]
    exact hmiddle
  refine ⟨?_, ?_, fun i hi => ?_, ?_, fun i => ?_, ?_, ?_, fun i hi => ?_⟩
  · exact (hperm.nodup_iff.mpr (nodup_cons.mpr ⟨hnew 0, hl.nodup⟩))
  · intro h hmem
    obtain rfl | hmem := mem_cons.mp (hperm.subset hmem)
    · have := hl.live _ mem_cons_self
      exact ⟨this.1.trans this.2, Nat.lt_succ_self _⟩
    · exact ⟨(hl.live h hmem).1, Nat.lt_succ_of_lt (hl.live h hmem).2⟩
  · dsimp only
    have hchain := hl.forward i hi
    by_cases hin : i < n
    · obtain ⟨xs, ys, hsplit, hsplit'⟩ := hl.split key i
      rw [inserted, if_pos hin, hsplit']
      rw [hsplit] at hchain
      have hnodup := hsplit ▸ hnodup i
      have hnew := hsplit ▸ hnew i
      refine isChain_insert hchain hnodup hnew (fun c d hc hd hne hcd => ?_) ?_ ?_
      · rw [nodeAfter_of_ne hc]
        refine (if_neg fun h => ?_).trans hcd
        refine hne.elim (absurd h.2) fun hd => hd ?_
        rw [← hcd, h.2, hl.forward_pred key hi]
      · rw [nodeAfter_of_ne (hl.pred_lt_next key i).ne]
        exact if_pos ⟨hin, rfl⟩
      · rw [nodeAfter_self]
        exact (if_pos hin).trans (hl.forward_pred key hi)
    · rw [inserted, if_neg hin]
      refine hchain.imp_of_mem_imp fun a b ha _ hab => ?_
      rw [nodeAfter_of_ne (hlive i a ha).ne]
      exact (if_neg fun h => hin h.1).trans hab
  · dsimp only
    have hchain := hl.backward
    obtain ⟨xs, ys, hsplit, hsplit'⟩ := hl.split key 0
    rw [hzero, hsplit']
    rw [hsplit] at hchain
    have hnodup := hsplit ▸ hnodup 0
    have hnew := hsplit ▸ hnew 0
    refine isChain_insert hchain hnodup hnew (fun c d hc hd hne hcd => ?_) ?_ ?_
    · rw [nodeAfter_of_ne hd]
      refine (if_neg fun h => ?_).trans hcd
      refine hne.elim (fun hc => hc ?_) (absurd h)
      rw [← hcd, h, hl.backward_succ key]
    · rw [nodeAfter_self]
    · rw [nodeAfter_of_ne (hl.succ_lt_next key 0).ne]
      exact if_pos rfl
  · rw [inserted, inserted]
    by_cases hi : i + 1 < n
    · rw [if_pos hi, if_pos (Nat.lt_of_succ_lt hi)]
      exact ((hl.sublist i).filter _).append (((hl.sublist i).filter _).cons_cons _)
    · rw [if_neg hi]
      refine (hl.sublist i).trans ?_
      split
      · rw [← hl.passed_append_kept key i]
        exact (sublist_cons_self _ _).append_left _
      · exact .refl _
  · dsimp only
    rw [hzero, pairwise_append, pairwise_cons]
    have hsorted := hl.sorted
    rw [← hl.passed_append_kept key 0, pairwise_append] at hsorted
    obtain ⟨hpassed, hkept, hacross⟩ := hsorted
    have hold : ∀ h ∈ lists 0, (nodeAfter s lists key value n h).key = (s.node h).key := by
      intro h hh
      rw [nodeAfter_of_ne (hl.live_of_mem (mem_cons_of_mem _ hh)).2.ne]
    have hself : (nodeAfter s lists key value n s.next).key = key := by
      rw [nodeAfter_self]
    refine ⟨hpassed.imp_of_mem fun ha hb hle => ?_, ⟨fun b hb => ?_,
      hkept.imp_of_mem fun ha hb hle => ?_⟩, fun a ha b hb => ?_⟩
    · rw [hold _ (mem_filter.mp ha).1, hold _ (mem_filter.mp hb).1]
      exact hle
    · obtain ⟨hb, hlt⟩ := mem_filter.mp hb
      rw [hself, hold b hb]
      exact Int.le_of_lt (of_decide_eq_true hlt)
    · rw [hold _ (mem_filter.mp ha).1, hold _ (mem_filter.mp hb).1]
      exact hle
    · obtain ⟨ha', hle⟩ := mem_filter.mp ha
      obtain rfl | hb := mem_cons.mp hb
      · rw [hself, hold a ha']
        exact of_decide_eq_true hle
      · rw [hold a ha', hold b (mem_filter.mp hb).1]
        exact hacross a ha b hb
  · exact (hl.raise random).level_le
  · rw [inserted, if_neg (Nat.not_lt.mpr ((newLevel_le random).trans hi))]
    exact (hl.raise random).above i hi

/-! ## Runs -/

theorem inserted_zero {key : Int} {random : Fin maxLevel} :
    inserted s lists key (newLevel s random) 0 =
      passed s lists key 0 ++ s.next :: kept s lists key 0 :=
  if_pos (newLevel_pos random)

/-- On level 0 the new node is the last one of its key. -/
theorem Levels.contents_insert (hl : Levels s lists) (key : Int) (value : V) (random : Fin maxLevel)
    (k : Int) :
    ((inserted s lists key (newLevel s random) 0).map fun h =>
        ((nodeAfter s lists key value (newLevel s random) h).key,
          (nodeAfter s lists key value (newLevel s random) h).value)).filter (·.1 = k) =
      ((lists 0).map fun h => ((s.node h).key, (s.node h).value)).filter (·.1 = k) ++
        [(key, value)].filter (·.1 = k) := by
  have hself : (nodeAfter s lists key value (newLevel s random) s.next).key = key ∧
      (nodeAfter s lists key value (newLevel s random) s.next).value = value := by
    rw [nodeAfter_self]
    exact ⟨rfl, rfl⟩
  have hold : ∀ l ⊆ lists 0, (l.map fun h =>
      ((nodeAfter s lists key value (newLevel s random) h).key,
        (nodeAfter s lists key value (newLevel s random) h).value)) =
      l.map fun h => ((s.node h).key, (s.node h).value) := by
    intro l hl'
    refine map_congr_left fun h hh => ?_
    rw [nodeAfter_of_ne (hl.live_of_mem (mem_cons_of_mem _ (hl' hh))).2.ne]
  have hpassed : passed s lists key 0 ⊆ lists 0 := filter_subset_self _
  have hkept : kept s lists key 0 ⊆ lists 0 := filter_subset_self _
  rw [inserted_zero, map_append, map_cons, hself.1, hself.2, hold _ hpassed, hold _ hkept,
    ← hl.passed_append_kept key 0, map_append, filter_append, filter_append,
    append_assoc]
  congr 1
  by_cases hk : key = k
  · have hnone : ((kept s lists key 0).map fun h => ((s.node h).key, (s.node h).value)).filter
        (·.1 = k) = [] := by
      rw [filter_eq_nil_iff]
      intro p hp
      obtain ⟨h, hh, rfl⟩ := mem_map.mp hp
      have hlt := of_decide_eq_true (mem_filter.mp hh).2
      simp only [decide_eq_true_eq]
      omega
    rw [hnone, filter_cons_of_pos (by simpa using hk), hnone]
    simp [hk]
  · rw [filter_cons_of_neg (by simpa using hk), filter_cons_of_neg (by simpa using hk),
      filter_nil, append_nil]

theorem length_inserted (hl : Levels s lists) (key : Int) (random : Fin maxLevel) :
    (inserted s lists key (newLevel s random) 0).length = (lists 0).length + 1 := by
  rw [inserted_zero, length_append, length_cons, ← Nat.add_assoc, ← length_append,
    hl.passed_append_kept key 0]

theorem initList_levels (empty : V) : Levels (initList empty) fun _ => [] where
  nodup := by
    simp [initList]
  live := by
    simp [initList, null]
  forward i hi := by
    simp [initList, hi]
  backward := by
    simp [initList]
  sublist _ := .refl _
  sorted := .nil
  level_le := Nat.zero_le _
  above _ _ := rfl

theorem Holds.runHolds {agree : UInt32 → Nat → Prop}
    (hagree : ∀ c n, agree c n → agree (c + 1) (n + 1)) {contents : List (Int × V)}
    (h : Holds agree s contents) (ops : List (Op V)) : RunHolds agree s contents ops := by
  induction ops generalizing s contents with
  | nil => exact h
  | cons op ops ih =>
    refine ⟨h, ?_⟩
    obtain ⟨lists, hl, hcount, hcontents⟩ := h
    refine ⟨_, hl.insertNode_eq op.key op.value op.random op.alloc, ?_⟩
    cases op.alloc with
    | false =>
      exact ⟨rfl, rfl, fun _ => ⟨rfl, rfl⟩, ih ⟨lists, hl.raise op.random, hcount, hcontents⟩⟩
    | true =>
      refine ⟨rfl, rfl, nofun, ih ⟨_, hl.insert op.key op.value op.random, ?_, fun k => ?_⟩⟩
      · rw [length_inserted hl]
        exact hagree _ _ hcount
      · refine (hl.contents_insert op.key op.value op.random k).trans ?_
        rw [hcontents k, if_pos rfl, filter_append]

/-- What every run of insertions keeps, whatever levels are drawn and whichever allocations fail.
The counter is that of 32 bits. -/
theorem runHolds_initList (empty : V) (ops : List (Op V)) :
    RunHolds (fun count n => count.toNat = n % 2 ^ 32) (initList empty) [] ops := by
  have hagree : ∀ (c : UInt32) (n : Nat), c.toNat = n % 2 ^ 32 →
      (c + 1).toNat = (n + 1) % 2 ^ 32 := by
    intro c n h
    rw [UInt32.toNat_add, h]
    simp
  have hinit : Holds (fun count n => count.toNat = n % 2 ^ 32) (initList empty) [] :=
    ⟨_, initList_levels empty, rfl, fun _ => rfl⟩
  exact hinit.runHolds hagree ops

theorem RunHolds.replicate {agree : UInt32 → Nat → Prop} {contents : List (Int × V)} {op : Op V}
    (halloc : op.alloc = true) {n : Nat} (h : RunHolds agree s contents (replicate n op)) :
    ∃ s', Holds agree s' (contents ++ replicate n (op.key, op.value)) := by
  induction n generalizing s contents with
  | zero => exact ⟨s, by simpa [RunHolds] using h⟩
  | succ n ih =>
    rw [replicate_succ] at h
    obtain ⟨-, s', -, -, -, -, h⟩ := h
    rw [if_pos halloc] at h
    obtain ⟨s', h⟩ := ih h
    rw [append_assoc, singleton_append, ← replicate_succ] at h
    exact ⟨s', h⟩

/-- After 2 ^ 32 insertions the counter is 0. -/
theorem not_runHolds_exact :
    ¬∀ ops : List (Op Unit), RunHolds (fun count n => count.toNat = n) (initList ()) [] ops := by
  intro h
  have hrun := h (replicate (2 ^ 32) ⟨0, (), ⟨0, by decide⟩, true⟩)
  obtain ⟨s, lists, -, hcount, hcontents⟩ := hrun.replicate rfl
  have hlen := congrArg List.length (hcontents 0)
  have hall : (replicate (2 ^ 32) ((0 : Int), ())).filter (·.1 = 0) =
      replicate (2 ^ 32) (0, ()) := by
    rw [filter_eq_self]
    intro p hp
    rw [eq_of_mem_replicate hp]
    rfl
  rw [nil_append, hall, length_replicate] at hlen
  have hle := length_filter_le (fun p : Int × Unit => decide (p.1 = 0))
    ((lists 0).map fun h => ((s.node h).key, (s.node h).value))
  rw [hlen, length_map, ← hcount] at hle
  exact absurd s.nodeCount.toNat_lt (Nat.not_lt.mpr hle)

end ISearch.Skip
