import Mathlib.Order.Lattice.Nat

/-!
# Heaps in an array

The first `n` entries of an array as a binary heap with the least key at the front: the two sifts,
and the entries that a heap of bounded size keeps of a stream.
-/

namespace ISearch.MinHeap

open Function

variable {α β : Type} [LinearOrder β] (key : α → β)

def parent (pos : Nat) : Nat := (pos - 1) / 2
def left (pos : Nat) : Nat := pos * 2 + 1
def right (pos : Nat) : Nat := pos * 2 + 2

/-- Two entries change places. -/
def swap (a : Nat → α) (i j : Nat) : Nat → α := a ∘ Equiv.swap i j

/-- An entry goes up while its parent has a greater key. -/
def siftUp (a : Nat → α) (i : Nat) : Nat → α :=
  if _h : 0 < i ∧ key (a i) < key (a (parent i)) then siftUp (swap a i (parent i)) (parent i) else a
termination_by i
decreasing_by rw [parent]; omega

/-- The child of the least key below `n`, if it is less than that of the entry. -/
def minPos (a : Nat → α) (n pos : Nat) : Nat :=
  let m := if left pos < n ∧ key (a (left pos)) < key (a pos) then left pos else pos
  if right pos < n ∧ key (a (right pos)) < key (a m) then right pos else m

theorem minPos_cases (a : Nat → α) (n pos : Nat) :
    minPos key a n pos = pos ∨
      (minPos key a n pos < n ∧ (minPos key a n pos = left pos ∨ minPos key a n pos = right pos) ∧
        key (a (minPos key a n pos)) < key (a pos)) := by
  rw [minPos]
  split_ifs with hleft hright hright
  · exact .inr ⟨hright.1, .inr rfl, hright.2.trans hleft.2⟩
  · exact .inr ⟨hleft.1, .inl rfl, hleft.2⟩
  · exact .inr ⟨hright.1, .inr rfl, hright.2⟩
  · exact .inl rfl

/-- An entry goes down while a child has a less key. -/
def siftDown (a : Nat → α) (n pos : Nat) : Nat → α :=
  if _h : minPos key a n pos ≠ pos then siftDown (swap a pos (minPos key a n pos)) n
    (minPos key a n pos)
  else a
termination_by n - pos
decreasing_by
  obtain heq | ⟨hlt, hchild, -⟩ := minPos_cases key a n pos
  · exact absurd heq ‹_›
  · rw [left, right] at hchild
    omega

@[simp] theorem swap_left (a : Nat → α) (i j : Nat) : swap a i j i = a j :=
  congrArg a (Equiv.swap_apply_left i j)

@[simp] theorem swap_right (a : Nat → α) (i j : Nat) : swap a i j j = a i :=
  congrArg a (Equiv.swap_apply_right i j)

theorem swap_of_ne (a : Nat → α) {i j k : Nat} (hi : k ≠ i) (hj : k ≠ j) : swap a i j k = a k :=
  congrArg a (Equiv.swap_apply_of_ne_of_ne hi hj)

theorem parent_lt {i : Nat} (hi : 0 < i) : parent i < i := by
  rw [parent]
  omega

/-- The first `n` entries. -/
def entries (a : Nat → α) (n : Nat) : Multiset α := (Multiset.range n).map a

@[simp] theorem entries_zero (a : Nat → α) : entries a 0 = 0 := rfl

theorem entries_succ (a : Nat → α) (n : Nat) : entries a (n + 1) = a n ::ₘ entries a n := by
  rw [entries, Multiset.range_succ, Multiset.map_cons, entries]

@[simp] theorem card_entries (a : Nat → α) (n : Nat) : (entries a n).card = n := by
  rw [entries, Multiset.card_map, Multiset.card_range]

theorem mem_entries {a : Nat → α} {n : Nat} {x : α} : x ∈ entries a n ↔ ∃ i < n, a i = x := by
  simp [entries]

theorem entries_congr {a b : Nat → α} {n : Nat} (h : ∀ i < n, a i = b i) :
    entries a n = entries b n :=
  Multiset.map_congr rfl fun i hi => h i (Multiset.mem_range.mp hi)

theorem entries_swap {a : Nat → α} {n i j : Nat} (hi : i < n) (hj : j < n) :
    entries (swap a i j) n = entries a n := by
  have hrange : (Multiset.range n).map (Equiv.swap i j) = Multiset.range n := by
    refine (Multiset.Nodup.ext ((Multiset.nodup_range n).map (Equiv.injective _))
      (Multiset.nodup_range n)).mpr fun k => ?_
    rw [Multiset.mem_map]
    constructor
    · rintro ⟨m, hm, rfl⟩
      rw [Multiset.mem_range] at hm ⊢
      rw [Equiv.swap_apply_def]
      split_ifs <;> assumption
    · intro hk
      refine ⟨Equiv.swap i j k, ?_, Equiv.swap_apply_self i j k⟩
      rw [Multiset.mem_range] at hk ⊢
      rw [Equiv.swap_apply_def]
      split_ifs <;> assumption
  rw [entries, swap, ← Multiset.map_map, hrange, entries]

theorem entries_update (a : Nat → α) (x : α) (n : Nat) :
    a 0 ::ₘ entries (update a 0 x) (n + 1) = x ::ₘ entries a (n + 1) := by
  induction n with
  | zero =>
    rw [entries_succ, entries_succ, update_self]
    exact Multiset.cons_swap _ _ _
  | succ n ih =>
    rw [entries_succ, update_of_ne (Nat.succ_ne_zero n), Multiset.cons_swap, ih,
      entries_succ a (n + 1), Multiset.cons_swap]

theorem entries_siftUp {a : Nat → α} {n i : Nat} (hi : i < n) :
    entries (siftUp key a i) n = entries a n := by
  induction i using Nat.strong_induction_on generalizing a with
  | _ i ih =>
    rw [siftUp]
    split_ifs with h
    · have hlt : parent i < i := parent_lt h.1
      rw [ih _ hlt (hlt.trans hi), entries_swap hi (hlt.trans hi)]
    · rfl

theorem entries_siftDown {a : Nat → α} {n pos : Nat} (hpos : pos < n) :
    entries (siftDown key a n pos) n = entries a n := by
  induction hm : n - pos using Nat.strong_induction_on generalizing a pos with
  | _ m ih =>
    subst hm
    rw [siftDown]
    split_ifs with h
    · obtain heq | ⟨hlt, hchild, -⟩ := minPos_cases key a n pos
      · exact absurd heq h
      · rw [ih _ (by rw [left, right] at hchild; omega) hlt rfl, entries_swap hpos hlt]
    · rfl

/-! ## The order -/

/-- No entry has a less key than its parent. -/
def Ordered (a : Nat → α) (n : Nat) : Prop :=
  ∀ i, 0 < i → i < n → key (a (parent i)) ≤ key (a i)

variable {key}

theorem Ordered.root_le {a : Nat → α} {n i : Nat} (h : Ordered key a n) (hi : i < n) :
    key (a 0) ≤ key (a i) := by
  induction i using Nat.strong_induction_on with
  | _ i ih =>
    obtain rfl | hpos := i.eq_zero_or_pos
    · exact le_rfl
    · have hlt : parent i < i := parent_lt hpos
      exact (ih _ hlt (hlt.trans hi)).trans (h i hpos hi)

/-- Only the entry at `i` may have a less key than its parent. -/
structure UpReady (key : α → β) (a : Nat → α) (n i : Nat) : Prop where
  others : ∀ j, 0 < j → j < n → j ≠ i → key (a (parent j)) ≤ key (a j)
  below : 0 < i → ∀ j, 0 < j → j < n → parent j = i → key (a (parent i)) ≤ key (a j)

theorem UpReady.move {a : Nat → α} {n i : Nat} (h : UpReady key a n i) (hi : i < n) (hpos : 0 < i)
    (hkey : key (a i) < key (a (parent i))) :
    UpReady key (swap a i (parent i)) n (parent i) where
  others := by
    intro j hj hjn hne
    have hlt := parent_lt hj
    obtain rfl | hji := eq_or_ne j i
    · rw [swap_left, swap_right]
      exact hkey.le
    · rw [swap_of_ne a hji hne]
      by_cases hparent : parent j = i
      · rw [hparent, swap_left]
        exact h.below hpos j hj hjn hparent
      · by_cases hsame : parent j = parent i
        · rw [hsame, swap_right]
          exact hkey.le.trans (hsame ▸ h.others j hj hjn hji)
        · rw [swap_of_ne a hparent hsame]
          exact h.others j hj hjn hji
  below := by
    intro hp j hj hjn hparent
    have hlt := parent_lt hpos
    have hroot : key (a (parent (parent i))) ≤ key (a (parent i)) :=
      h.others _ hp (hlt.trans hi) hlt.ne
    rw [swap_of_ne a ((parent_lt hp).trans hlt).ne (parent_lt hp).ne]
    obtain rfl | hji := eq_or_ne j i
    · rwa [swap_left]
    · rw [swap_of_ne a hji fun heq => (parent_lt hj).ne (hparent.trans heq.symm)]
      exact hroot.trans (hparent ▸ h.others j hj hjn hji)

theorem UpReady.siftUp {a : Nat → α} {n i : Nat} (h : UpReady key a n i) (hi : i < n) :
    Ordered key (siftUp key a i) n := by
  induction i using Nat.strong_induction_on generalizing a with
  | _ i ih =>
    rw [MinHeap.siftUp]
    split_ifs with hlt
    · exact ih _ (parent_lt hlt.1) (h.move hi hlt.1 hlt.2) ((parent_lt hlt.1).trans hi)
    · intro j hj hjn
      obtain rfl | hne := eq_or_ne j i
      · exact not_lt.mp fun hkey => hlt ⟨hj, hkey⟩
      · exact h.others j hj hjn hne

/-- Only the entry at `pos` may have a greater key than its children. -/
structure DownReady (key : α → β) (a : Nat → α) (n pos : Nat) : Prop where
  others : ∀ j, 0 < j → j < n → parent j ≠ pos → key (a (parent j)) ≤ key (a j)
  above : 0 < pos → ∀ j, 0 < j → j < n → parent j = pos → key (a (parent pos)) ≤ key (a j)

theorem minPos_le {a : Nat → α} {n pos j : Nat} (hj : 0 < j) (hjn : j < n)
    (hparent : parent j = pos) :
    key (a (minPos key a n pos)) ≤ key (a j) := by
  obtain rfl | rfl : j = left pos ∨ j = right pos := by
    rw [parent] at hparent
    rw [left, right]
    omega
  all_goals
    rw [minPos]
    split_ifs with hleft hright hright <;> grind

theorem parent_minPos {a : Nat → α} {n pos : Nat} (h : minPos key a n pos ≠ pos) :
    parent (minPos key a n pos) = pos ∧ 0 < minPos key a n pos ∧ minPos key a n pos < n ∧
      key (a (minPos key a n pos)) < key (a pos) := by
  obtain heq | ⟨hlt, hchild, hkey⟩ := minPos_cases key a n pos
  · exact absurd heq h
  · rw [left, right] at hchild
    refine ⟨?_, by omega, hlt, hkey⟩
    rw [parent]
    omega

theorem DownReady.move {a : Nat → α} {n pos m : Nat} (h : DownReady key a n pos)
    (hparent : parent m = pos) (hm : 0 < m) (hmn : m < n) (hkey : key (a m) < key (a pos))
    (hle : ∀ j, 0 < j → j < n → parent j = pos → key (a m) ≤ key (a j)) :
    DownReady key (swap a pos m) n m where
  others := by
    intro j hj hjn hne
    have hlt : pos < m := hparent ▸ parent_lt hm
    obtain rfl | hjm := eq_or_ne j m
    · rw [hparent, swap_left, swap_right]
      exact hkey.le
    · obtain rfl | hjp := eq_or_ne j pos
      · rw [swap_left, swap_of_ne a (parent_lt hj).ne hne]
        exact h.above hj m hm hmn hparent
      · rw [swap_of_ne a hjp hjm]
        by_cases hchild : parent j = pos
        · rw [hchild, swap_left]
          exact hle j hj hjn hchild
        · rw [swap_of_ne a hchild hne]
          exact h.others j hj hjn hchild
  above := by
    intro _ j hj hjn hjm
    have hlt : pos < m := hparent ▸ parent_lt hm
    have hjgt : m < j := hjm ▸ parent_lt hj
    rw [hparent, swap_left, swap_of_ne a (hlt.trans hjgt).ne' hjgt.ne']
    exact hjm ▸ h.others j hj hjn (hjm ▸ hlt.ne')

theorem DownReady.siftDown {a : Nat → α} {n pos : Nat} (h : DownReady key a n pos) :
    Ordered key (siftDown key a n pos) n := by
  induction hk : n - pos using Nat.strong_induction_on generalizing a pos with
  | _ k ih =>
    subst hk
    rw [MinHeap.siftDown]
    split_ifs with hne
    · obtain ⟨hparent, hm, hmn, hkey⟩ := parent_minPos hne
      have hlt := parent_lt hm
      rw [hparent] at hlt
      refine ih _ (by omega) ?_ rfl
      exact h.move hparent hm hmn hkey fun j hj hjn hjp => minPos_le hj hjn hjp
    · rw [not_ne_iff] at hne
      intro j hj hjn
      by_cases hparent : parent j = pos
      · have hle : key (a (minPos key a n pos)) ≤ key (a j) := minPos_le hj hjn hparent
        rwa [hne, ← hparent] at hle
      · exact h.others j hj hjn hparent

/-! ## A heap of bounded size -/

/-- A heap of at most `count` entries. -/
structure Queue (α : Type) where
  pairs : Nat → α
  size : Nat
  count : Nat

namespace Queue

variable (key)

/-- The first entry is taken out. -/
def deQueue (q : Queue α) : Queue α :=
  if q.size < 1 then q
  else
    let pairs := update q.pairs 0 (q.pairs (q.size - 1))
    if q.size - 1 = 0 then { q with pairs := pairs, size := 0 }
    else { q with pairs := siftDown key pairs (q.size - 1) 0, size := q.size - 1 }

def push (q : Queue α) (val : α) : Queue α :=
  { q with pairs := siftUp key (update q.pairs q.size val) q.size, size := q.size + 1 }

/-- An entry comes in: into a full heap only if its key is greater than the least, whose entry goes.
-/
def enQueue (q : Queue α) (val : α) : Queue α :=
  if q.size ≥ q.count then
    if key (q.pairs 0) ≥ key val then q else (q.deQueue key).push key val
  else q.push key val

/-- The entries in the heap. -/
def contents (q : Queue α) : Multiset α := entries q.pairs q.size

variable {key}

structure WF (key : α → β) (q : Queue α) : Prop where
  ordered : Ordered key q.pairs q.size
  size_le : q.size ≤ q.count

variable {q : Queue α}

theorem contents_push (val : α) : (q.push key val).contents = val ::ₘ q.contents := by
  rw [contents, push, entries_siftUp key (Nat.lt_succ_self _), entries_succ, update_self]
  refine congrArg (val ::ₘ ·) (entries_congr fun i hi => ?_)
  exact update_of_ne hi.ne _ _

theorem WF.push (h : q.WF key) (hlt : q.size < q.count) (val : α) : (q.push key val).WF key where
  ordered := by
    refine UpReady.siftUp ⟨fun j hj hjn hne => ?_, fun hpos j hj hjn hparent => ?_⟩
      (Nat.lt_succ_self _)
    · have hjs : j < q.size + 1 := hjn
      replace hjs : j < q.size := by omega
      rw [update_of_ne hne, update_of_ne ((parent_lt hj).trans hjs).ne]
      exact h.ordered j hj hjs
    · have hjs : j < q.size + 1 := hjn
      have := parent_lt hj
      omega
  size_le := hlt

theorem contents_deQueue (h : 0 < q.size) :
    q.pairs 0 ::ₘ (q.deQueue key).contents = q.contents := by
  obtain ⟨n, hn⟩ : ∃ n, q.size = n + 1 := ⟨q.size - 1, by omega⟩
  have hcontents : (q.deQueue key).contents = entries (update q.pairs 0 (q.pairs n)) n := by
    rw [deQueue, if_neg (by omega), hn, Nat.add_sub_cancel]
    split_ifs with hzero
    · subst hzero
      rfl
    · exact entries_siftDown key (Nat.pos_of_ne_zero hzero)
  rw [hcontents, contents, hn]
  cases n with
  | zero => rfl
  | succ n =>
    rw [entries_update, ← entries_succ]

theorem WF.deQueue (h : q.WF key) : (q.deQueue key).WF key := by
  rw [Queue.deQueue]
  split_ifs with hempty hone
  · exact h
  · exact ⟨fun i _ hi => absurd hi (Nat.not_lt_zero i), Nat.zero_le _⟩
  · refine ⟨DownReady.siftDown ⟨fun j hj hjn hne => ?_, fun hpos => absurd hpos (Nat.lt_irrefl 0)⟩,
      (Nat.sub_le _ _).trans h.size_le⟩
    have hjs : j < q.size := hjn.trans_le (Nat.sub_le _ _)
    rw [update_of_ne hj.ne', update_of_ne hne]
    exact h.ordered j hj hjs

theorem count_deQueue : (q.deQueue key).count = q.count := by
  rw [Queue.deQueue]
  split_ifs <;> rfl

theorem size_deQueue : (q.deQueue key).size = q.size - 1 := by
  rw [Queue.deQueue]
  split_ifs with hempty hone
  · omega
  · exact hone.symm
  · rfl

/-- Of the entries that came in, those of the greatest keys are in the heap. -/
structure Keeps (key : α → β) (q : Queue α) (all : Multiset α) : Prop where
  wf : q.WF key
  rest : ∃ rest, all = q.contents + rest ∧ (rest ≠ 0 → q.size = q.count) ∧
    ∀ x ∈ rest, ∀ y ∈ q.contents, key x ≤ key y

theorem Keeps.enQueue {all : Multiset α} (h : q.Keeps key all) (hcount : 0 < q.count) (val : α) :
    (q.enQueue key val).Keeps key (val ::ₘ all) ∧ (q.enQueue key val).count = q.count := by
  obtain ⟨rest, hall, hfull, hle⟩ := h.rest
  have hroot : ∀ y ∈ q.contents, key (q.pairs 0) ≤ key y := by
    intro y hy
    obtain ⟨i, hi, rfl⟩ := mem_entries.mp hy
    exact h.wf.ordered.root_le hi
  rw [Queue.enQueue]
  split_ifs with hsize hkey
  · have hsize' : q.size = q.count := le_antisymm h.wf.size_le hsize
    refine ⟨⟨h.wf, val ::ₘ rest, ?_, fun _ => hsize', ?_⟩, rfl⟩
    · rw [hall, ← Multiset.add_cons]
    · exact Multiset.forall_mem_cons.mpr ⟨fun y hy => hkey.trans (hroot y hy), hle⟩
  · have hsize' : q.size = q.count := le_antisymm h.wf.size_le hsize
    have hpos : 0 < q.size := hsize' ▸ hcount
    have hlt : (q.deQueue key).size < (q.deQueue key).count := by
      rw [size_deQueue, count_deQueue]
      omega
    have hcontents := @contents_deQueue α β _ key q hpos
    refine ⟨⟨h.wf.deQueue.push hlt val, q.pairs 0 ::ₘ rest, ?_, fun _ => ?_, ?_⟩, count_deQueue⟩
    · rw [contents_push, hall, ← hcontents, Multiset.add_cons, Multiset.cons_add, Multiset.cons_add]
      exact Multiset.cons_swap _ _ _
    · rw [Queue.push, size_deQueue, count_deQueue]
      change q.size - 1 + 1 = q.count
      omega
    · have hmem {y : α} (hy : y ∈ (q.deQueue key).contents) : y ∈ q.contents :=
        hcontents ▸ Multiset.mem_cons_of_mem hy
      have hval : key (q.pairs 0) < key val := not_le.mp hkey
      have hroot' : q.pairs 0 ∈ q.contents := hcontents ▸ Multiset.mem_cons_self _ _
      rw [contents_push]
      refine Multiset.forall_mem_cons.mpr ⟨?_, fun x hx => ?_⟩
      · exact Multiset.forall_mem_cons.mpr ⟨hval.le, fun y hy => hroot y (hmem hy)⟩
      · exact Multiset.forall_mem_cons.mpr
          ⟨(hle x hx _ hroot').trans hval.le, fun y hy => hle x hx y (hmem hy)⟩
  · have hlt : q.size < q.count := not_le.mp hsize
    have hrest : rest = 0 := by_contra fun hne => hlt.ne (hfull hne)
    subst hrest
    refine ⟨⟨h.wf.push hlt val, 0, ?_, fun hne => absurd rfl hne, nofun⟩, rfl⟩
    rw [contents_push, hall, Multiset.add_zero, Multiset.add_zero]

theorem Keeps.foldl {all : Multiset α} (h : q.Keeps key all) (hcount : 0 < q.count)
    (vals : List α) :
    (vals.foldl (Queue.enQueue key) q).Keeps key (vals + all) ∧
      (vals.foldl (Queue.enQueue key) q).count = q.count := by
  induction vals generalizing q all with
  | nil => exact ⟨(zero_add all).symm ▸ h, rfl⟩
  | cons val vals ih =>
    obtain ⟨hnext, hcount'⟩ := h.enQueue hcount val
    obtain ⟨hkeeps, hcount''⟩ := ih hnext (hcount' ▸ hcount)
    refine ⟨?_, hcount''.trans hcount'⟩
    rw [Multiset.add_cons, ← Multiset.cons_add, Multiset.cons_coe] at hkeeps
    exact hkeeps

theorem Keeps.card {all : Multiset α} (h : q.Keeps key all) :
    q.contents.card = min q.count all.card := by
  obtain ⟨rest, hall, hfull, -⟩ := h.rest
  have hsize := h.wf.size_le
  rw [hall, Multiset.card_add, contents, card_entries]
  by_cases hrest : rest = 0
  · rw [hrest, Multiset.card_zero]
    omega
  · rw [hfull hrest]
    omega

end Queue

end ISearch.MinHeap
